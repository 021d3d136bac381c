import Equium.Miner.Wallet
import Equium.Website.WalletCrypto

/-! @src clients/website/src/lib/wallet-context.tsx | name:Wallet of the website | scheme:interleaving

    The wallet's state beside `localStorage`. Storing and unlocking await WebCrypto, and while they do
    the user can lock, forget, unlock again or import something else. An install sets the whole state
    when it is done; an unlock keeps whatever is stored by then and puts the key in that it was called
    for. One page has the storage to itself. -/

namespace Equium.Website
open Schemes

inductive WalletScreen where
  | loading
  | needsSetup
  | needsUnlock
  | unlocked
deriving DecidableEq, Repr

structure WalletState (Keypair : Type) where
  status : WalletScreen
  stored : Option EncryptedWallet
  loaded : Option (LoadedWallet Keypair)
  error : Option String

/-- A call that awaits WebCrypto, with what it was called with. -/
inductive Pending (Keypair : Type) where
  | install (kp : Keypair) (password : String) (d : WalletDraws)
  | unlock (wallet : EncryptedWallet) (password : String)

/-- `localStorage`, the provider's state and the calls under way. -/
structure WalletPage (Keypair : Type) where
  storage : StoredText
  state : WalletState Keypair
  pending : List (Pending Keypair)

section
variable {Key Keypair : Type} (c : WebCrypto Key Keypair)

/-! ### The provider -/

/-- The first effect. -/
def mount (storage : StoredText) : WalletPage Keypair :=
  match loadStoredWallet storage with
  | none => ⟨storage, ⟨.needsSetup, none, none, none⟩, []⟩
  | some stored => ⟨storage, ⟨.needsUnlock, some stored, none, none⟩, []⟩

namespace WalletPage

def setError (p : WalletPage Keypair) (msg : String) : WalletPage Keypair :=
  { p with state := { p.state with error := some msg } }

/-- An empty message counts as none. -/
def clearError (p : WalletPage Keypair) : WalletPage Keypair :=
  { p with state := { p.state with error := p.state.error.filter (· = "") } }

/-- `installWallet` up to its first await, and so `createWithPassword` and `adoptKeypair`. -/
def installWallet (p : WalletPage Keypair) (kp : Keypair) (password : String) (d : WalletDraws) :
    WalletPage Keypair :=
  if utf16Length password < 6 then p.setError "password must be at least 6 characters"
  else { p with pending := p.pending ++ [.install kp password d] }

def importWithPassword (p : WalletPage Keypair) (secretInput password : String) (d : WalletDraws) :
    WalletPage Keypair :=
  match keypairFromUserInput c secretInput with
  | .error e => p.setError e
  | .ok kp => p.installWallet kp password d

/-- `installWallet` behind its awaits; `setItem` throws when the storage has no room. -/
def installed (p : WalletPage Keypair) (kp : Keypair) (password : String) (d : WalletDraws)
    (setItem : Except String Unit) : WalletPage Keypair :=
  match encryptWallet c kp password d with
  | .error e => p.setError e
  | .ok stored =>
    match setItem with
    | .error e => p.setError e
    | .ok () => { p with
        storage := .record stored
        state := ⟨.unlocked, some stored, some ⟨stored.pubkey, kp⟩, none⟩ }

/-- `unlock` up to its first await; what stands in the wallet is decoded at once. -/
def unlock (p : WalletPage Keypair) (password : String) : WalletPage Keypair :=
  match p.state.stored with
  | none => p
  | some wallet =>
    if (b64ToBytes wallet.salt).isNone || (b64ToBytes wallet.iv).isNone ||
        (b64ToBytes wallet.ct).isNone then p.setError c.atobError
    else { p with pending := p.pending ++ [.unlock wallet password] }

/-- `unlock` behind its awaits. -/
def unlocked (p : WalletPage Keypair) (wallet : EncryptedWallet) (password : String) :
    WalletPage Keypair :=
  match unlockWallet c wallet password with
  | .error e => p.setError e
  | .ok loaded => { p with state :=
      { p.state with status := .unlocked, loaded := some loaded, error := none } }

def lock (p : WalletPage Keypair) : WalletPage Keypair :=
  if p.state.stored.isSome then
    { p with state := { p.state with status := .needsUnlock, loaded := none, error := none } }
  else p

def forget (p : WalletPage Keypair) : WalletPage Keypair :=
  { p with storage := .absent, state := ⟨.needsSetup, none, none, none⟩ }

def exportSecret (p : WalletPage Keypair) : Option String :=
  p.state.loaded.map fun loaded => exportSecretKeyBase58 c loaded.keypair

end WalletPage

/-! ### Runs -/

inductive WalletEvent (Keypair : Type) where
  | install (kp : Keypair) (password : String) (d : WalletDraws)
  | importSecret (secretInput password : String) (d : WalletDraws)
  | unlock (password : String)
  | installed (kp : Keypair) (password : String) (d : WalletDraws) (setItem : Except String Unit)
  | unlocked (wallet : EncryptedWallet) (password : String)
  | lock
  | forget
  | clearError
  /-- the page is loaded again; what was under way is gone -/
  | reload

/-- One call, or one call that goes on behind its awaits. -/
inductive WalletMove : WalletPage Keypair → WalletEvent Keypair → WalletPage Keypair → Prop
  | install {p : WalletPage Keypair} (kp : Keypair) (password : String) (d : WalletDraws) :
      WalletMove p (.install kp password d) (p.installWallet kp password d)
  | importSecret {p : WalletPage Keypair} (secretInput password : String) (d : WalletDraws) :
      WalletMove p (.importSecret secretInput password d)
        (p.importWithPassword c secretInput password d)
  | unlock {p : WalletPage Keypair} (password : String) :
      WalletMove p (.unlock password) (p.unlock c password)
  | installed {p : WalletPage Keypair} {before after : List (Pending Keypair)} {kp : Keypair}
      {password : String} {d : WalletDraws} (hp : p.pending = before ++ .install kp password d :: after)
      (setItem : Except String Unit) : WalletMove p (.installed kp password d setItem)
        ({ p with pending := before ++ after }.installed c kp password d setItem)
  | unlocked {p : WalletPage Keypair} {before after : List (Pending Keypair)}
      {wallet : EncryptedWallet} {password : String}
      (hp : p.pending = before ++ .unlock wallet password :: after) :
      WalletMove p (.unlocked wallet password)
        ({ p with pending := before ++ after }.unlocked c wallet password)
  | lock {p : WalletPage Keypair} : WalletMove p .lock p.lock
  | forget {p : WalletPage Keypair} : WalletMove p .forget p.forget
  | clearError {p : WalletPage Keypair} : WalletMove p .clearError p.clearError
  | reload {p : WalletPage Keypair} : WalletMove p .reload (mount p.storage)

/-! ### What the wallet is for -/

/-- The key in safe keeping and its password: the last one stored, unless the wallet was forgotten. -/
def keptAfter (kept : Option (Keypair × String)) :
    WalletEvent Keypair → Option (Keypair × String)
  | .installed kp password d (.ok ()) =>
    match encryptWallet c kp password d with
    | .ok _ => some (kp, password)
    | .error _ => kept
  | .forget => none
  | _ => kept

def kept (tr : List (Taken (WalletPage Keypair) (WalletEvent Keypair))) : Option (Keypair × String) :=
  tr.foldl (fun k t => keptAfter c k t.label) none

/-- A key in memory belongs to the wallet that is stored. -/
def Consistent (p : WalletPage Keypair) : Prop :=
  ∀ l, p.state.loaded = some l → ∃ w, p.state.stored = some w ∧ w.pubkey = l.pubkey

/-- An unlock ends well while no wallet, or one of another key than it was called for, is stored. -/
def Overtaken (t : Taken (WalletPage Keypair) (WalletEvent Keypair)) : Prop :=
  ∃ wallet password l, t.label = .unlocked wallet password ∧
    unlockWallet c wallet password = .ok l ∧ t.pre.state.stored.map (·.pubkey) ≠ some wallet.pubkey

/-! ### One step -/

/-- All but the error and the calls under way. -/
structure Same (p p' : WalletPage Keypair) : Prop where
  storage : p'.storage = p.storage
  status : p'.state.status = p.state.status
  stored : p'.state.stored = p.state.stored
  loaded : p'.state.loaded = p.state.loaded

/-- What a step can do to the wallet. -/
inductive Moved (p : WalletPage Keypair) : WalletEvent Keypair → WalletPage Keypair → Prop
  | same {e : WalletEvent Keypair} {p' : WalletPage Keypair} (h : Same p p')
      (hkept : ∀ k, keptAfter c k e = k)
      (hfailed : ∀ wallet password, e = .unlocked wallet password →
        ∀ l, unlockWallet c wallet password ≠ .ok l) : Moved p e p'
  | installed {kp : Keypair} {password : String} {d : WalletDraws} {w : EncryptedWallet}
      {pending : List (Pending Keypair)} (h : encryptWallet c kp password d = .ok w) :
      Moved p (.installed kp password d (.ok ()))
        ⟨.record w, ⟨.unlocked, some w, some ⟨w.pubkey, kp⟩, none⟩, pending⟩
  | unlocked {wallet : EncryptedWallet} {password : String} {l : LoadedWallet Keypair}
      {pending : List (Pending Keypair)} (h : unlockWallet c wallet password = .ok l) :
      Moved p (.unlocked wallet password) ⟨p.storage, ⟨.unlocked, p.state.stored, some l, none⟩, pending⟩
  | lock {w : EncryptedWallet} (h : p.state.stored = some w) :
      Moved p .lock ⟨p.storage, ⟨.needsUnlock, some w, none, none⟩, p.pending⟩
  | forget : Moved p .forget ⟨.absent, ⟨.needsSetup, none, none, none⟩, p.pending⟩
  | reload : Moved p .reload (mount p.storage)

variable {c}

theorem Same.setError (p : WalletPage Keypair) (pending : List (Pending Keypair)) (msg : String) :
    Same p (WalletPage.setError { p with pending := pending } msg) := ⟨rfl, rfl, rfl, rfl⟩

theorem installWallet_same (p : WalletPage Keypair) (kp : Keypair) (password : String)
    (d : WalletDraws) : Same p (p.installWallet kp password d) := by
  unfold WalletPage.installWallet
  split_ifs
  · exact .setError p _ _
  · exact ⟨rfl, rfl, rfl, rfl⟩

/-- Step lemma: every call is one of these. -/
theorem WalletMove.moved {p p' : WalletPage Keypair} {e : WalletEvent Keypair}
    (h : WalletMove c p e p') : Moved c p e p' := by
  cases h with
  | install kp password d => exact .same (installWallet_same p kp password d) (fun _ => rfl) (by simp)
  | importSecret secretInput password d =>
    refine .same ?_ (fun _ => rfl) (by simp)
    unfold WalletPage.importWithPassword
    cases keypairFromUserInput c secretInput with
    | error e => exact .setError p _ _
    | ok kp => exact installWallet_same p kp password d
  | unlock password =>
    refine .same ?_ (fun _ => rfl) (by simp)
    unfold WalletPage.unlock
    cases p.state.stored with
    | none => exact ⟨rfl, rfl, rfl, rfl⟩
    | some wallet =>
      dsimp only
      split_ifs
      · exact .setError p _ _
      · exact ⟨rfl, rfl, rfl, rfl⟩
  | @installed before after kp password d hp setItem =>
    unfold WalletPage.installed
    cases he : encryptWallet c kp password d with
    | error e =>
      refine .same (.setError p _ _) (fun k => ?_) (by simp)
      cases setItem with
      | error e' => rfl
      | ok u => simp [keptAfter, he]
    | ok stored =>
      cases setItem with
      | error e => exact .same (.setError p _ _) (fun _ => rfl) (by simp)
      | ok u => exact .installed he
  | @unlocked before after wallet password hp =>
    unfold WalletPage.unlocked
    cases he : unlockWallet c wallet password with
    | error e =>
      refine .same (.setError p _ _) (fun _ => rfl) fun wallet' password' heq l hl => ?_
      obtain ⟨rfl, rfl⟩ := WalletEvent.unlocked.inj heq
      rw [he] at hl
      cases hl
    | ok l => exact .unlocked he
  | lock =>
    unfold WalletPage.lock
    cases hs : p.state.stored with
    | none => exact .same ⟨rfl, rfl, rfl, rfl⟩ (fun _ => rfl) (by simp)
    | some w =>
      have hlock : Moved c p .lock ⟨p.storage, ⟨.needsUnlock, some w, none, none⟩, p.pending⟩ := .lock hs
      simpa [hs] using hlock
  | forget => exact .forget
  | clearError => exact .same ⟨rfl, rfl, rfl, rfl⟩ (fun _ => rfl) (by simp)
  | reload => exact .reload

/-! ### The invariant -/

/-- The screen that goes with a key in memory and a stored wallet. -/
def screenOf (loaded : Option (LoadedWallet Keypair)) (stored : Option EncryptedWallet) : WalletScreen :=
  if loaded.isSome then .unlocked else if stored.isSome then .needsUnlock else .needsSetup

/-- INVARIANT: the state shows the storage, the screen what is there, and the key in safe keeping opens
    from the storage under its password. -/
structure Shows (c : WebCrypto Key Keypair) (k : Option (Keypair × String)) (p : WalletPage Keypair) :
    Prop where
  stored : p.state.stored = loadStoredWallet p.storage
  status : p.state.status = screenOf p.state.loaded p.state.stored
  kept : ∀ kp password, k = some (kp, password) → ∃ w, loadStoredWallet p.storage = some w ∧
    w.pubkey = c.publicKey kp ∧ unlockWallet c w password = .ok ⟨w.pubkey, kp⟩

theorem Shows.mount (storage : StoredText) (k : Option (Keypair × String))
    (hk : ∀ kp password, k = some (kp, password) → ∃ w, loadStoredWallet storage = some w ∧
      w.pubkey = c.publicKey kp ∧ unlockWallet c w password = .ok ⟨w.pubkey, kp⟩) :
    Shows c k (mount storage) := by
  unfold Website.mount
  cases hs : loadStoredWallet storage with
  | none =>
    refine ⟨hs.symm, rfl, fun kp password h => ?_⟩
    obtain ⟨w, hw, -⟩ := hk kp password h
    rw [hs] at hw
    cases hw
  | some stored => exact ⟨hs.symm, rfl, hk⟩

/-- Step lemma. -/
theorem Shows.step {k : Option (Keypair × String)} {p p' : WalletPage Keypair} {e : WalletEvent Keypair}
    (h : Shows c k p) (hc : c.Sound) (hm : Moved c p e p') : Shows c (keptAfter c k e) p' := by
  cases hm with
  | same hs hkept hfailed =>
    rw [hkept]
    refine ⟨?_, ?_, ?_⟩
    · rw [hs.stored, hs.storage, h.stored]
    · rw [hs.status, hs.loaded, hs.stored, h.status]
    · rw [hs.storage]
      exact h.kept
  | @installed kp password d w pending he =>
    obtain ⟨hload, hpub, hopen⟩ := hc.reopens he
    refine ⟨hload.symm, rfl, ?_⟩
    intro kp' password' hk
    simp only [keptAfter, he, Option.some.injEq, Prod.mk.injEq] at hk
    obtain ⟨rfl, rfl⟩ := hk
    exact ⟨w, hload, hpub, hopen⟩
  | unlocked he => exact ⟨h.stored, rfl, h.kept⟩
  | @lock w hs =>
    refine ⟨hs.symm.trans h.stored, rfl, h.kept⟩
  | forget =>
    refine ⟨rfl, rfl, ?_⟩
    rintro _ _ ⟨⟩
  | reload => exact .mount p.storage k h.kept

/-- Run lemma. -/
theorem shows_run (hc : c.Sound) {storage : StoredText} {p : WalletPage Keypair}
    {tr : List (Taken (WalletPage Keypair) (WalletEvent Keypair))}
    (h : Run (WalletMove c) (mount storage) tr p) : Shows c (kept c tr) p := by
  refine h.inv (fun tr p => Shows c (kept c tr) p) (.mount storage none ?_) ?_
  · rintro _ _ ⟨⟩
  · intro tr p e p' _ ih hst
    rw [kept, List.foldl_append]
    exact ih.step hc hst.moved

/-! ### Keys that outlive their wallet -/

theorem mount_consistent (storage : StoredText) : Consistent (mount storage : WalletPage Keypair) := by
  unfold mount
  cases loadStoredWallet storage with
  | none => rintro l ⟨⟩
  | some stored => rintro l ⟨⟩

/-- Step lemma: a consistent page stays so, unless an unlock is overtaken; and then it does not. -/
theorem Moved.consistent_iff {p p' : WalletPage Keypair} {e : WalletEvent Keypair}
    (hm : Moved c p e p') (h : Consistent p) : Consistent p' ↔ ¬ Overtaken c ⟨p, e, p'⟩ := by
  have hnot : (∀ wallet password, e ≠ .unlocked wallet password) → ¬ Overtaken c ⟨p, e, p'⟩ := by
    rintro hne ⟨wallet, password, l, hl, -⟩
    exact hne wallet password hl
  cases hm with
  | same hs hkept hfailed =>
    refine iff_of_true ?_ ?_
    · intro l hl
      rw [hs.stored]
      exact h l (hs.loaded ▸ hl)
    · rintro ⟨wallet, password, l, hlabel, hl, -⟩
      exact hfailed wallet password hlabel l hl
  | installed he =>
    refine iff_of_true ?_ (hnot (by simp))
    rintro l ⟨⟩
    exact ⟨_, rfl, rfl⟩
  | @unlocked wallet password l pending he =>
    obtain ⟨hpub, -⟩ := unlocked_pubkey he
    constructor
    · rintro hcons ⟨wallet', password', l', hl, -, hne⟩
      obtain ⟨rfl, rfl⟩ := WalletEvent.unlocked.inj hl
      obtain ⟨w, hw, hwl⟩ := hcons l rfl
      exact hne (by rw [show p.state.stored = some w from hw, Option.map_some, hwl, hpub])
    · intro hno l' hl'
      obtain rfl := Option.some.inj hl'
      by_contra hcon
      refine hno ⟨wallet, password, l, rfl, he, fun hmap => hcon ?_⟩
      obtain ⟨w, hw, hwp⟩ := Option.map_eq_some_iff.mp hmap
      exact ⟨w, hw, hwp.trans hpub.symm⟩
  | lock hs =>
    refine iff_of_true ?_ (hnot (by simp))
    rintro l ⟨⟩
  | forget =>
    refine iff_of_true ?_ (hnot (by simp))
    rintro l ⟨⟩
  | reload =>
    refine iff_of_true ?_ (hnot (by simp))
    exact mount_consistent p.storage

/-- Run lemma: a page is consistent as long as no unlock was overtaken. -/
theorem consistent_run {storage : StoredText} {p : WalletPage Keypair}
    {tr : List (Taken (WalletPage Keypair) (WalletEvent Keypair))}
    (h : Run (WalletMove c) (mount storage) tr p) :
    ((∀ t ∈ tr, Consistent t.post) → Consistent p) ∧
      ((∀ t ∈ tr, Consistent t.post) ↔ ∀ t ∈ tr, ¬ Overtaken c t) := by
  refine h.inv (fun tr p => ((∀ t ∈ tr, Consistent t.post) → Consistent p) ∧
    ((∀ t ∈ tr, Consistent t.post) ↔ ∀ t ∈ tr, ¬ Overtaken c t))
    ⟨fun _ => mount_consistent storage, by simp⟩ ?_
  intro tr p e p' _ ih hst
  obtain ⟨hlast, hiff⟩ := ih
  refine ⟨fun hall => hall ⟨p, e, p'⟩ (by simp), ?_⟩
  rw [List.forall_mem_append, List.forall_mem_append, List.forall_mem_singleton,
    List.forall_mem_singleton, ← hiff]
  exact and_congr_right fun hall => hst.moved.consistent_iff (hlast hall)

/-- A key that belongs to a stored wallet is gone once it is locked. -/
theorem lock_drops {p : WalletPage Keypair} (h : Consistent p) : p.lock.state.loaded = none := by
  unfold WalletPage.lock
  split_ifs with hs
  · rfl
  · by_contra hl
    obtain ⟨l, hl⟩ := Option.ne_none_iff_exists'.mp hl
    obtain ⟨w, hw, -⟩ := h l hl
    rw [hw] at hs
    exact hs rfl

variable (c)

/-- THE WALLET: in every interleaving of the calls the state shows what is stored and the screen what is
    there; the key that was stored last opens from the storage under its password, also after a reload,
    until the wallet is forgotten, and no password opens another; an exported secret can be imported.
    A key in memory belongs to the stored wallet throughout exactly if no unlock ends well while no
    wallet, or one of another key than it was called for, is stored; and then every lock drops it. -/
theorem website_wallet (hc : c.Sound) (storage : StoredText) (p : WalletPage Keypair)
    (tr : List (Taken (WalletPage Keypair) (WalletEvent Keypair)))
    (h : Run (WalletMove c) (mount storage) tr p) :
    (p.state.stored = loadStoredWallet p.storage ∧
      p.state.status = screenOf p.state.loaded p.state.stored) ∧
    (∀ kp password, kept c tr = some (kp, password) → ∃ w, loadStoredWallet p.storage = some w ∧
      unlockWallet c w password = .ok ⟨c.publicKey kp, kp⟩ ∧
      ∀ password' l, unlockWallet c w password' = .ok l → c.publicKey l.keypair = c.publicKey kp) ∧
    (∀ text, p.exportSecret c = some text → ∃ l, p.state.loaded = some l ∧
      keypairFromUserInput c text = .ok l.keypair) ∧
    ((∀ t ∈ tr, Consistent t.post) ↔ ∀ t ∈ tr, ¬ Overtaken c t) ∧
    ((∀ t ∈ tr, ¬ Overtaken c t) → ∀ t ∈ tr, t.label = .lock → t.post.state.loaded = none) := by
  have hshows := shows_run hc h
  refine ⟨⟨hshows.stored, hshows.status⟩, fun kp password hk => ?_, fun text htext => ?_,
    (consistent_run h).2, fun hno t ht hl => ?_⟩
  · obtain ⟨w, hw, hpub, hopen⟩ := hshows.kept kp password hk
    refine ⟨w, hw, hpub ▸ hopen, fun password' l hl => ?_⟩
    rw [← hpub]
    exact (unlocked_pubkey hl).2
  · obtain ⟨l, hl, rfl⟩ := Option.map_eq_some_iff.mp htext
    exact ⟨l, hl, hc.imports l.keypair⟩
  · obtain ⟨tr₁, tr₂, rfl, hr, hst⟩ := h.mem t ht
    have hbefore := consistent_run hr
    have hpre := hbefore.1 (hbefore.2.mpr fun t' ht' => hno t' (List.mem_append_left _ ht'))
    obtain ⟨pre, label, post⟩ := t
    dsimp only at hl hst hpre ⊢
    subst hl
    cases hst with
    | lock => exact lock_drops hpre

end

namespace Demo
open Miner.Demo (publicKey walletCrates_sound)

/-- PBKDF2 of `"password"` with the salt `[0; 16]`. -/
def derivedKey : List UInt8 :=
  [183, 81, 42, 138, 81, 217, 48, 239, 57, 232, 66, 21, 0, 3, 20, 223,
    60, 27, 141, 113, 102, 16, 213, 160, 251, 101, 125, 64, 231, 49, 115, 223]

/-- The AES key stream under that key and the iv `[0; 12]`. -/
def keyStream : List UInt8 :=
  [206, 64, 81, 72, 145, 78, 79, 92, 187, 249, 190, 124, 81, 77, 22, 210,
    245, 186, 238, 50, 223, 48, 52, 179, 120, 144, 67, 40, 218, 14, 79, 72]

/-- The tag of the seed `[0; 32]`. -/
def tag : List UInt8 := [32, 82, 218, 94, 81, 53, 202, 215, 24, 33, 15, 238, 162, 19, 177, 159]

def applyStream (bytes : List UInt8) : List UInt8 :=
  bytes.mapIdx fun i b => b ^^^ keyStream.getD i 0

/-- The third-party functions on that password, salt, iv and seed. -/
def webCrypto : WebCrypto (List UInt8) Core.Bytes32 where
  pbkdf2 _ _ _ := .ok derivedKey
  encrypt _ _ plaintext := .ok (applyStream plaintext ++ tag)
  decrypt _ _ ciphertext :=
    let (body, mac) := ciphertext.splitAt (ciphertext.length - tag.length)
    if mac = tag then some (applyStream body) else none
  secretKey seed := seed ++ publicKey
  publicKey _ := "4zvwRjXUKGfvwnParsHAS3HuSVzV5cA4McphgmoCtajS"
  fromSeed seed := .ok (Vector.ofFn fun i => seed.getD i 0)
  fromSecretKey bytes := .ok (Vector.ofFn fun i => bytes.getD i 0)
  encodeBase58 bytes := String.ofList (Base58.encode bytes)
  decodeBase58 := Base58.decode
  parseArray _ := none
  atobError := "The string to be decoded is not correctly encoded."

theorem applyStream_applyStream (bytes : List UInt8) : applyStream (applyStream bytes) = bytes := by
  refine List.ext_getElem (by simp [applyStream]) fun i _ _ => ?_
  simp only [applyStream, List.getElem_mapIdx]
  rw [UInt8.xor_assoc, UInt8.xor_self, UInt8.xor_zero]

theorem webCrypto_sound : webCrypto.Sound where
  opens key iv plaintext ct h := by
    obtain rfl := Except.ok.inj h
    have hlen : (applyStream plaintext ++ tag).length - tag.length = (applyStream plaintext).length := by
      simp
    refine ⟨?_, by simp [applyStream, tag]⟩
    simp only [webCrypto, hlen, List.splitAt_eq, List.take_left, List.drop_left, if_true,
      applyStream_applyStream]
  seeded := walletCrates_sound.crypto.seeded
  secret := walletCrates_sound.bytes
  base58 bytes := by
    dsimp only [webCrypto]
    rw [String.toList_ofList, Base58.decode_encode]
  base58_empty := rfl
  letters := walletCrates_sound.letters

def draws : WalletDraws := ⟨Vector.replicate 16 0, Vector.replicate 12 0, 0⟩

def seed : Core.Bytes32 := Vector.replicate 32 0

/-- A wallet is stored and locked; while it is being unlocked, it is forgotten; then it is locked. -/
theorem overtaken_run : ∃ w tr, Run (WalletMove webCrypto) (mount .absent) tr
    ⟨.absent, ⟨.unlocked, none, some ⟨w, seed⟩, none⟩, []⟩ ∧ ∃ t ∈ tr, Overtaken webCrypto t := by
  obtain ⟨w, hw⟩ : ∃ w, encryptWallet webCrypto seed "password" draws = .ok w :=
    ⟨_, encryptWallet_ok.mpr ⟨by decide, derivedKey, rfl, _, rfl, rfl⟩⟩
  obtain ⟨-, -, hopen⟩ := webCrypto_sound.reopens hw
  obtain ⟨salt, hsalt, iv, hiv, ct, hct, -⟩ := unlockWallet_ok.mp hopen
  have hinstall : WalletMove webCrypto (mount .absent) (.install seed "password" draws)
      ⟨.absent, ⟨.needsSetup, none, none, none⟩, [.install seed "password" draws]⟩ := .install _ _ _
  have hinstalled : WalletMove webCrypto
      ⟨.absent, ⟨.needsSetup, none, none, none⟩, [.install seed "password" draws]⟩
      (.installed seed "password" draws (.ok ()))
      ⟨.record w, ⟨.unlocked, some w, some ⟨w.pubkey, seed⟩, none⟩, []⟩ := by
    have hmove := @WalletMove.installed _ _ webCrypto ⟨.absent, ⟨.needsSetup, none, none, none⟩,
      [.install seed "password" draws]⟩ [] [] _ _ _ rfl (.ok ())
    rw [WalletPage.installed, hw] at hmove
    exact hmove
  have hunlock : WalletMove webCrypto ⟨.record w, ⟨.needsUnlock, some w, none, none⟩, []⟩
      (.unlock "password") ⟨.record w, ⟨.needsUnlock, some w, none, none⟩, [.unlock w "password"]⟩ := by
    have hmove := WalletMove.unlock (c := webCrypto)
      (p := ⟨.record w, ⟨.needsUnlock, some w, none, none⟩, []⟩) "password"
    simp only [WalletPage.unlock, hsalt, hiv, hct] at hmove
    exact hmove
  have hunlocked : WalletMove webCrypto
      ⟨.absent, ⟨.needsSetup, none, none, none⟩, [.unlock w "password"]⟩ (.unlocked w "password")
      ⟨.absent, ⟨.unlocked, none, some ⟨w.pubkey, seed⟩, none⟩, []⟩ := by
    have hmove := @WalletMove.unlocked _ _ webCrypto ⟨.absent, ⟨.needsSetup, none, none, none⟩,
      [.unlock w "password"]⟩ [] [] _ _ rfl
    rw [WalletPage.unlocked, hopen] at hmove
    exact hmove
  refine ⟨w.pubkey, _, ((((((Run.nil.snoc hinstall).snoc hinstalled).snoc .lock).snoc hunlock).snoc
    .forget).snoc hunlocked).snoc .lock, ?_⟩
  refine ⟨_, List.mem_append_left _ (List.mem_append_right _ (List.mem_singleton_self _)), w, "password",
    _, rfl, hopen, ?_⟩
  simp [WalletPage.forget]

end Demo

/-- The key of a forgotten wallet stays in memory although it was locked. -/
theorem website_wallet_demo : ∃ p tr, Run (WalletMove Demo.webCrypto) (mount .absent) tr p ∧
    p.storage = .absent ∧ p.state.loaded.isSome = true ∧ p.state.status = .unlocked ∧
    ¬ ∀ t ∈ tr, Consistent t.post := by
  obtain ⟨w, tr, hrun, t, ht, hover⟩ := Demo.overtaken_run
  obtain ⟨⟨-, hstatus⟩, -, -, hiff, -⟩ := website_wallet _ Demo.webCrypto_sound _ _ _ hrun
  exact ⟨_, tr, hrun, rfl, rfl, hstatus, fun hall => hiff.mp hall t ht hover⟩

end Equium.Website
