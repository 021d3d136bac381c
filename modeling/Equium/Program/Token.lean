import Equium.Program.Instructions

/-! @src programs/equium/src/instructions/mine.rs, fund_vault.rs | name:Token program

    The program relies on `transfer_checked` moving exactly the stated amount under the signature of
    the source's owner, or refusing without effect (`Moved`, `TokenLaws`). `splTransfer` is a token
    program that satisfies the law, so it can be met. -/

namespace Equium.Program
open Schemes Equium.Core

/-- What a `transfer_checked` that went through did. -/
structure Moved (L : Ledger) (t : TransferChecked) (L' : Ledger) : Prop where
  signed : t.authority ∈ t.signers
  owner : ∃ a, L.accounts t.source = some a ∧ a.owner = t.authority
  balance : ∀ k, L'.balance k + (if k = t.source then t.amount.toNat else 0) =
    L.balance k + (if k = t.destination then t.amount.toNat else 0)
  kept : ∀ k, (L'.accounts k).map (fun a => (a.mint, a.owner)) =
    (L.accounts k).map fun a => (a.mint, a.owner)

/-- What the program relies on: transfers move what they say, and no transaction carries a
    signature of the config address, which only the program can sign for. -/
structure TokenLaws (rt : Runtime) : Prop where
  moved : ∀ {L t L'}, rt.transferChecked L t = some L' → Moved L t L'
  pda : rt.canSign rt.configPda = false

/-- Debit the source account `a` and credit the destination account `b`. -/
def Ledger.move (L : Ledger) (t : TransferChecked) (a b : TokenAccount) : Ledger :=
  (L.set t.source { a with amount := a.amount - t.amount }).set t.destination
    { b with amount := b.amount + t.amount }

/-- A token program: checks signature, owner, mint, decimals and balance, then moves the amount. -/
def splTransfer (L : Ledger) (t : TransferChecked) : Option Ledger :=
  match L.accounts t.source, L.accounts t.destination with
  | some a, some b =>
    if t.authority ∈ t.signers ∧ a.owner = t.authority ∧ a.mint = t.mint ∧ b.mint = t.mint ∧
        L.mints t.mint = some t.decimals ∧ t.amount ≤ a.amount then
      if t.source = t.destination then some L
      else if b.amount.toNat + t.amount.toNat < 2 ^ 64 then some (L.move t a b)
      else none
    else none
  | _, _ => none

section move
variable {L : Ledger} {t : TransferChecked} {a b : TokenAccount}

theorem move_balance (ha : L.accounts t.source = some a) (hb : L.accounts t.destination = some b)
    (hne : t.destination ≠ t.source) (hle : t.amount ≤ a.amount)
    (hfit : b.amount.toNat + t.amount.toNat < 2 ^ 64) (k : Pubkey) :
    (L.move t a b).balance k + (if k = t.source then t.amount.toNat else 0) =
      L.balance k + (if k = t.destination then t.amount.toNat else 0) := by
  have hsub := UInt64.toNat_sub_of_le a.amount t.amount hle
  have hle := UInt64.le_iff_toNat_le.mp hle
  by_cases hd : k = t.destination
  · subst hd
    simp only [Ledger.balance, Ledger.move, Ledger.set_self, hb, if_neg hne, if_true,
      UInt64.toNat_add, Nat.mod_eq_of_lt hfit, Nat.add_zero]
  · by_cases hs : k = t.source
    · subst hs
      simp only [Ledger.balance, Ledger.move, Ledger.set_ne _ _ hd, Ledger.set_self, hsub, ha,
        if_true, if_neg hd]
      omega
    · simp only [Ledger.balance, Ledger.move, Ledger.set_ne _ _ hd, Ledger.set_ne _ _ hs,
        if_neg hd, if_neg hs]

theorem move_kept (ha : L.accounts t.source = some a) (hb : L.accounts t.destination = some b)
    (k : Pubkey) : ((L.move t a b).accounts k).map (fun a => (a.mint, a.owner)) =
      (L.accounts k).map fun a => (a.mint, a.owner) := by
  by_cases hd : k = t.destination
  · subst hd; simp [Ledger.move, hb]
  · by_cases hs : k = t.source
    · subst hs; simp [Ledger.move, Ledger.set_ne _ _ hd, ha]
    · rw [Ledger.move, Ledger.set_ne _ _ hd, Ledger.set_ne _ _ hs]

end move

theorem splTransfer_moved {L : Ledger} {t : TransferChecked} {L' : Ledger}
    (h : splTransfer L t = some L') : Moved L t L' := by
  unfold splTransfer at h
  split at h
  · rename_i a b ha hb
    split_ifs at h with hc he hfit
    · obtain ⟨hsigned, howner, -⟩ := hc
      obtain rfl := Option.some.inj h
      exact ⟨hsigned, ⟨a, ha, howner⟩, fun k => by rw [he], fun _ => rfl⟩
    · obtain ⟨hsigned, howner, -, -, -, hle⟩ := hc
      obtain rfl := Option.some.inj h
      exact ⟨hsigned, ⟨a, ha, howner⟩, move_balance ha hb (Ne.symm he) hle hfit, move_kept ha hb⟩
  · cases h

end Equium.Program
