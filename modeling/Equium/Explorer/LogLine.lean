import Equium.Explorer.Transactions
import Equium.Schemes.Text

/-! @src programs/equium/src/instructions, scripts/indexer.ts, clients/website/src/lib/rpc.ts |
    name:The log line | scheme:round trip

    The explorer learns of a block from one line of text. `mine` prints it with Rust's formatting, the
    runtime puts `Program log: ` in front, and the indexer and the website match it against a regular
    expression and read the numbers as doubles. Without Redis the website also shows a line that does
    not match, as a block of height -1. -/

namespace Equium.Explorer
open Schemes

/-! ### Printing -/

/-- `msg!`: what the runtime logs. -/
def programLog (message : String) : String := "Program log: " ++ message

/-- The message of `mine`. -/
def minedMessage (height : ℕ) (winner : String) (reward : ℕ) : String :=
  "equium: mined block " ++ toString height ++ " by " ++ winner ++ " for " ++ toString reward ++
    " base units"

/-- A text that `\w+` matches to its end: base58 is one. -/
structure Word (s : String) : Prop where
  chars : ∀ c ∈ s.toList, isWord c = true
  nonempty : s ≠ ""

theorem programLog_toList (message : String) :
    (programLog message).toList = "Program log: ".toList ++ message.toList := String.toList_append

theorem toString_toList (n : ℕ) : (toString n).toList = Nat.toDigits 10 n := Nat.toList_repr

theorem minedMessage_toList (height reward : ℕ) (winner : String) :
    (minedMessage height winner reward).toList = "equium: mined block ".toList ++
      (Nat.toDigits 10 height ++ (" by ".toList ++ (winner.toList ++ (" for ".toList ++
        (Nat.toDigits 10 reward ++ " base units".toList))))) := by
  unfold minedMessage
  simp only [String.toList_append, List.append_assoc, toString_toList]

/-! ### Numbers -/

/-- Below `2 ^ 53` a number is read exactly. -/
theorem number_eq {digits : List Char} (h : decimal digits < 2 ^ 53) :
    number digits = decimal digits := roundBits_of_lt h

/-- Reading a printed number. -/
theorem number_toDigits {n : ℕ} (h : n < 2 ^ 53) : number (Nat.toDigits 10 n) = n := by
  have hvalue : decimal (Nat.toDigits 10 n) = n := by
    rw [decimal, ← Nat.ofDigitChars_eq_foldl]
    exact Nat.ofDigitChars_ten_toDigits
  rw [number_eq (hvalue.symm ▸ h), hvalue]

theorem toDigits_isDigit (n : ℕ) : ∀ c ∈ Nat.toDigits 10 n, c.isDigit = true :=
  fun _ hc => Nat.isDigit_of_mem_toDigits (by decide) (by decide) hc

/-! ### Matching -/

variable {p : Char → Bool} {s : List Char}

/-- A literal and a run of the class, up to a character outside it. -/
theorem literalThen_append (literal : String) {run : List Char} (rest : List Char) (hrun : ∀ c ∈ run, p c = true)
    (hne : run ≠ []) (hrest : ∀ c ∈ rest.head?, p c = false) :
    literalThen literal p (literal.toList ++ (run ++ rest)) = some (run, rest) := by
  have hstop : rest.takeWhile p = [] ∧ rest.dropWhile p = rest := by
    cases rest with
    | nil => exact ⟨rfl, rfl⟩
    | cons c cs =>
      have hc : ¬ p c = true := by simp [hrest c rfl]
      exact ⟨List.takeWhile_cons_of_neg hc, List.dropWhile_cons_of_neg hc⟩
  have htake : (run ++ rest).takeWhile p = run := by
    rw [List.takeWhile_append_of_pos hrun, hstop.1, List.append_nil]
  have hdrop : (run ++ rest).dropWhile p = rest := by
    rw [List.dropWhile_append_of_pos hrun, hstop.2]
  rw [literalThen, List.dropPrefix?_append_of_beq _ (beq_self_eq_true _)]
  dsimp only
  rw [htake, hdrop, if_neg hne]

/-- What is matched was there. -/
theorem literalThen_some {literal : String} {run rest : List Char}
    (h : literalThen literal p s = some (run, rest)) :
    s = literal.toList ++ (run ++ rest) ∧ run ≠ [] ∧ (∀ c ∈ run, p c = true) ∧
      ∀ c ∈ rest.head?, p c = false := by
  unfold literalThen at h
  split at h
  · rename_i tail hdrop
    split_ifs at h with hne
    obtain ⟨rfl, rfl⟩ := Prod.mk.inj (Option.some.inj h)
    obtain ⟨pre, rfl, hpre⟩ := List.dropPrefix?_eq_some_iff.mp hdrop
    refine ⟨by rw [eq_of_beq hpre, List.takeWhile_append_dropWhile], hne,
      List.all_eq_true.mp List.all_takeWhile, fun c hc => ?_⟩
    have hhead := List.head?_dropWhile_not p tail
    rwa [show (tail.dropWhile p).head? = some c from hc] at hhead
  · cases h

/-- The expression matches at the start of a printed message. -/
theorem matchHere_message {height reward : ℕ} (hh : height < 2 ^ 53) (hr : reward < 2 ^ 53)
    {winner : String} (hw : Word winner) (rest : List Char)
    (hrest : ∀ c ∈ rest.head?, c.isDigit = false) :
    matchHere ("mined block ".toList ++ (Nat.toDigits 10 height ++ (" by ".toList ++ (winner.toList ++
      (" for ".toList ++ (Nat.toDigits 10 reward ++ rest)))))) = some ⟨height, winner, reward⟩ := by
  have hne : winner.toList ≠ [] := fun he => hw.nonempty (String.toList_eq_nil_iff.mp he)
  have hheight := literalThen_append "mined block " (" by ".toList ++ (winner.toList ++
    (" for ".toList ++ (Nat.toDigits 10 reward ++ rest)))) (toDigits_isDigit height)
    Nat.toDigits_ne_nil (by rintro _ ⟨⟩; decide)
  have hwinner := literalThen_append " by " (" for ".toList ++ (Nat.toDigits 10 reward ++ rest))
    hw.chars hne (by rintro _ ⟨⟩; decide)
  have hreward := literalThen_append " for " rest (toDigits_isDigit reward) Nat.toDigits_ne_nil hrest
  rw [matchHere, hheight]
  simp only [Option.bind_eq_bind, Option.bind_some]
  rw [hwinner]
  simp only [Option.bind_some]
  rw [hreward]
  simp only [Option.bind_some, Option.pure_def, number_toDigits hh, number_toDigits hr,
    String.ofList_toList]

/-- A match begins with the literal. -/
theorem matchHere_none (h : ¬ "mined block ".toList <+: s) : matchHere s = none := by
  have hdrop : s.dropPrefix? "mined block ".toList = none := by
    rw [Option.eq_none_iff_forall_ne_some]
    rintro rest hrest
    obtain ⟨pre, rfl, hpre⟩ := List.dropPrefix?_eq_some_iff.mp hrest
    exact h (eq_of_beq hpre ▸ List.prefix_append _ _)
  rw [matchHere, literalThen, hdrop]
  rfl

/-- A match at the start is the leftmost. -/
theorem matchMined_of_matchHere {m : MineLog} (h : matchHere s = some m) : matchMined s = some m := by
  cases s with
  | nil => exact h
  | cons c cs => rw [matchMined, List.tails_cons, List.findSome?_cons, h]

/-- The three parts of a text the expression matches. -/
structure Shape (text : List Char) (m : MineLog) where
  before : List Char
  height : List Char
  reward : List Char
  after : List Char
  text_eq : text = before ++ ("mined block ".toList ++ (height ++ (" by ".toList ++
    (m.winner.toList ++ (" for ".toList ++ (reward ++ after))))))
  word : Word m.winner
  height_eq : (∀ c ∈ height, c.isDigit = true) ∧ height ≠ [] ∧ m.height = number height
  reward_eq : (∀ c ∈ reward, c.isDigit = true) ∧ reward ≠ [] ∧ m.reward = number reward
  /-- the reward is read to its last digit -/
  ends : ∀ c ∈ after.head?, c.isDigit = false

/-- What the expression matches has the shape of a message. -/
theorem matchMined_some {m : MineLog} (h : matchMined s = some m) : Nonempty (Shape s m) := by
  obtain ⟨t, ht, hm⟩ := List.exists_of_findSome?_eq_some h
  obtain ⟨before, rfl⟩ := (List.mem_tails _ _).mp ht
  simp only [matchHere, Option.bind_eq_bind, Option.bind_eq_some_iff, Option.pure_def,
    Option.some.injEq, Prod.exists] at hm
  obtain ⟨height, s₁, h₁, winner, s₂, h₂, reward, s₃, h₃, rfl⟩ := hm
  obtain ⟨rfl, hne₁, hd₁, -⟩ := literalThen_some h₁
  obtain ⟨rfl, hne₂, hd₂, -⟩ := literalThen_some h₂
  obtain ⟨rfl, hne₃, hd₃, hend⟩ := literalThen_some h₃
  refine ⟨before, height, reward, s₃, by simp, ⟨by simpa using hd₂, fun he => hne₂ ?_⟩,
    ⟨hd₁, hne₁, rfl⟩, ⟨hd₃, hne₃, rfl⟩, hend⟩
  simpa using congrArg String.toList he

/-! ### The marker -/

/-- What the indexer looks for before it matches. -/
def marker : List Char := "equium: mined block".toList

theorem contains_iff {needle : List Char} : contains s needle = true ↔ needle <:+: s := by
  rw [contains, List.any_eq_true, List.infix_iff_prefix_suffix]
  constructor
  · rintro ⟨t, ht, hp⟩
    exact ⟨t, List.isPrefixOf_iff_prefix.mp hp, (List.mem_tails _ _).mp ht⟩
  · rintro ⟨t, hp, ht⟩
    exact ⟨t, (List.mem_tails _ _).mpr ht, List.isPrefixOf_iff_prefix.mpr hp⟩

/-- A message of the program with no second colon carries the marker only if it goes on like it. -/
theorem marker_infix {body : List Char} (hcolon : ':' ∉ body) :
    marker <:+: "Program log: ".toList ++ ("equium:".toList ++ body) ↔
      " mined block".toList <+: body := by
  have hskip : skips marker "Program log: ".toList = true := by decide +kernel
  rw [infix_skip hskip]
  constructor
  · rintro ⟨a, b, he⟩
    have hsplit : "equium".toList ++ ':' :: body = (a ++ "equium".toList) ++ ':' ::
        (" mined block".toList ++ b) := by
      calc "equium".toList ++ ':' :: body = a ++ marker ++ b := he.symm
        _ = a ++ ("equium".toList ++ ':' :: " mined block".toList) ++ b := rfl
        _ = _ := by simp only [List.append_assoc, List.cons_append]
    have hpre : ':' ∉ "equium".toList := by decide +kernel
    obtain ⟨-, -, hbody⟩ := (List.append_cons_inj_of_notMem hpre hcolon).mp hsplit
    exact ⟨b, hbody.symm⟩
  · rintro ⟨b, rfl⟩
    exact ⟨[], b, rfl⟩

/-! ### A transaction's lines -/

/-- The message is read back from the line the runtime makes of it. -/
theorem matchMined_message {height reward : ℕ} (hh : height < 2 ^ 53) (hr : reward < 2 ^ 53)
    {winner : String} (hw : Word winner) :
    matchMined (programLog (minedMessage height winner reward)).toList =
      some ⟨height, winner, reward⟩ := by
  have hsplit : "Program log: ".toList ++ "equium: mined block ".toList =
      "Program log: equium: ".toList ++ "mined block ".toList := rfl
  have hskip : skips "mined block ".toList "Program log: equium: ".toList = true := by decide +kernel
  have hend : ∀ c ∈ " base units".toList.head?, c.isDigit = false := by rintro _ ⟨⟩; decide
  rw [programLog_toList, minedMessage_toList, ← List.append_assoc, hsplit, List.append_assoc,
    matchMined, findSome?_tails_skip (fun _ => matchHere_none) hskip]
  exact matchMined_of_matchHere (matchHere_message hh hr hw _ hend)

theorem minedMessage_marker (height reward : ℕ) (winner : String) :
    contains (programLog (minedMessage height winner reward)).toList marker = true := by
  have hsplit : "equium: mined block ".toList = marker ++ [' '] := rfl
  rw [contains_iff, programLog_toList, minedMessage_toList, hsplit, List.append_assoc]
  exact List.infix_append' _ _ _

/-- What is read is what the line that is found matches. -/
theorem mineLog_of_find {t : Transaction} {o : Option String}
    (h : (t.logMessages.getD []).find? (fun l => contains l.toList marker) = o) :
    t.mineLog = o.bind fun line => matchMined line.toList := by
  subst h
  unfold Transaction.mineLog
  split
  · next line hline => exact (congrArg (·.bind fun l => matchMined l.toList) hline).symm
  · next hline => exact (congrArg (·.bind fun l => matchMined l.toList) hline).symm

/-- The lines of a transaction: the first that carries the marker decides. -/
theorem mineLog_first {t : Transaction} {before after : List String} {line : String}
    (hlogs : t.logMessages = some (before ++ line :: after))
    (hbefore : ∀ l ∈ before, contains l.toList marker = false)
    (hline : contains line.toList marker = true) : t.mineLog = matchMined line.toList := by
  have hnone : before.find? (fun l => contains l.toList marker) = none :=
    List.find?_eq_none.mpr fun l hl => Bool.not_eq_true _ ▸ hbefore l hl
  have hfind : (before ++ line :: after).find? (fun l => contains l.toList marker) = some line := by
    rw [List.find?_append, hnone, Option.none_or]
    exact List.find?_cons_of_pos hline
  have hread : (t.logMessages.getD []).find? (fun l => contains l.toList marker) = some line := by
    rw [hlogs]
    exact hfind
  exact mineLog_of_find hread

/-- A message is read back behind lines without the marker. -/
theorem mine_line_read {t : Transaction} {before after : List String} {height reward : ℕ}
    {winner : String}
    (hlogs : t.logMessages = some (before ++ programLog (minedMessage height winner reward) :: after))
    (hbefore : ∀ l ∈ before, contains l.toList marker = false) (hw : Word winner)
    (hh : height < 2 ^ 53) (hr : reward < 2 ^ 53) : t.mineLog = some ⟨height, winner, reward⟩ := by
  rw [mineLog_first hlogs hbefore (minedMessage_marker height reward winner)]
  exact matchMined_message hh hr hw

/-- What is read stands in the first line that carries the marker. -/
theorem mineLog_some {t : Transaction} {m : MineLog} (h : t.mineLog = some m) :
    ∃ before line after, t.logMessages = some (before ++ line :: after) ∧
      (∀ l ∈ before, contains l.toList marker = false) ∧ contains line.toList marker = true ∧
      Nonempty (Shape line.toList m) := by
  unfold Transaction.mineLog at h
  split at h
  · rename_i line hfind
    obtain ⟨hline, before, after, heq, hbefore⟩ := List.find?_eq_some_iff_append.mp hfind
    refine ⟨before, line, after, ?_, fun l hl => (Bool.not_eq_true' _).mp (hbefore l hl), hline,
      matchMined_some h⟩
    cases hlogs : t.logMessages with
    | none =>
      rw [hlogs] at heq
      cases before <;> cases heq
    | some lines =>
      rw [hlogs] at heq
      exact congrArg some heq
  · cases h

/-! ### The website without Redis -/

/-- A `MinedBlock` as `fetchRecentBlocksUncached` makes it. -/
structure RecentBlock where
  sig : Signature
  height : ℤ
  winner : String
  reward : ℕ
  ts : ℕ
  newChallenge : String
  deriving DecidableEq

/-- The block shown for a transaction, once one of its lines carries the marker. -/
def recentBlock (t : Transaction) : RecentBlock where
  sig := t.signature
  height := match t.mineLog with
    | some m => m.height
    | none => -1
  winner := match t.mineLog with
    | some m => m.winner
    | none => ""
  reward := match t.mineLog with
    | some m => m.reward
    | none => 0
  ts := t.blockTime.getD 0
  newChallenge := ""

/-- `isMined`: some line carries the marker. -/
def Transaction.isMined (t : Transaction) : Bool :=
  (t.logMessages.getD []).any fun l => contains l.toList marker

/-- The loop over the signatures; `limit` is looked at when a block has been pushed. -/
def pushRecent (limit : ℕ) : List Transaction → List RecentBlock → List RecentBlock
  | [], out => out
  | t :: txs, out =>
    if t.err then pushRecent limit txs out
    else if t.isMined = false then pushRecent limit txs out
    else if limit ≤ (out ++ [recentBlock t]).length then out ++ [recentBlock t]
    else pushRecent limit txs (out ++ [recentBlock t])

/-- `fetchRecentBlocksUncached`, with the node answering every request. -/
def fetchRecentBlocksUncached (chain : List Transaction) (limit : ℕ) : List RecentBlock :=
  pushRecent limit (getSignaturesForAddress chain 60 none none) []

/-- The loop takes the marked transactions in order, one at least. -/
theorem pushRecent_eq {limit : ℕ} (txs : List Transaction) {out : List RecentBlock}
    (h : out.length < max 1 limit) : pushRecent limit txs out =
      (out ++ (txs.filter fun t => !t.err && t.isMined).map recentBlock).take (max 1 limit) := by
  induction txs generalizing out with
  | nil => simp [pushRecent, List.take_of_length_le (Nat.le_of_lt h)]
  | cons t txs ih =>
    rw [pushRecent]
    by_cases hmarked : t.err = false ∧ t.isMined = true
    · obtain ⟨herr, hmined⟩ := hmarked
      rw [List.filter_cons_of_pos (by simp [herr, hmined]), if_neg (by simp [herr]),
        if_neg (by simp [hmined]), List.map_cons,
        List.append_cons out (recentBlock t) (List.map recentBlock _)]
      split_ifs with hfull
      · rw [List.length_append, List.length_singleton] at hfull
        have hlen : max 1 limit = (out ++ [recentBlock t]).length := by
          rw [List.length_append, List.length_singleton]
          omega
        rw [hlen, List.take_left]
      · exact ih (by omega)
    · have hskip : (t :: txs).filter (fun t => !t.err && t.isMined) =
          txs.filter fun t => !t.err && t.isMined :=
        List.filter_cons_of_neg (by simpa using hmarked)
      rw [hskip]
      split_ifs with herr hmined
      · exact ih h
      · exact ih h
      · exact absurd ⟨Bool.not_eq_true _ ▸ herr, Bool.not_eq_false _ ▸ hmined⟩ hmarked
      · exact absurd ⟨Bool.not_eq_true _ ▸ herr, Bool.not_eq_false _ ▸ hmined⟩ hmarked

/-- LOG LINE: what `mine` logs is read back exactly, wherever the line stands among the others of its
    transaction, as long as none ahead of it carries the marker and both numbers are below `2 ^ 53`;
    whatever is read from a transaction stands in its first line that carries the marker, in the shape
    of a message, each number as `Number` reads its digits; and the website without Redis shows the
    newest successful transactions that carry the marker, with what is read from them, or with height
    -1, no winner and no reward where nothing is. -/
theorem mine_line_parsed (t : Transaction) :
    (∀ (before after : List String) (height reward : ℕ) (winner : String), Word winner →
      height < 2 ^ 53 → reward < 2 ^ 53 →
      t.logMessages = some (before ++ programLog (minedMessage height winner reward) :: after) →
      (∀ l ∈ before, contains l.toList marker = false) →
      t.mineLog = some ⟨height, winner, reward⟩) ∧
    (∀ m, t.mineLog = some m → ∃ before line after,
      t.logMessages = some (before ++ line :: after) ∧
      (∀ l ∈ before, contains l.toList marker = false) ∧ contains line.toList marker = true ∧
      Nonempty (Shape line.toList m)) ∧
    (∀ chain limit, fetchRecentBlocksUncached chain limit =
      (((getSignaturesForAddress chain 60 none none).filter fun t => !t.err && t.isMined).map
        recentBlock).take (max 1 limit)) ∧
    (∀ m, t.mineLog = some m → t.isMined = true ∧ recentBlock t =
      ⟨t.signature, m.height, m.winner, m.reward, t.blockTime.getD 0, ""⟩) ∧
    (t.mineLog = none → recentBlock t = ⟨t.signature, -1, "", 0, t.blockTime.getD 0, ""⟩) := by
  refine ⟨fun before after height reward winner hw hh hr hlogs hbefore =>
    mine_line_read hlogs hbefore hw hh hr, fun m => mineLog_some, ?_, fun m hm => ⟨?_, ?_⟩,
    fun hm => ?_⟩
  · exact fun chain limit => pushRecent_eq _ (Nat.lt_of_lt_of_le Nat.zero_lt_one (Nat.le_max_left ..))
  · obtain ⟨before, line, after, hlogs, -, hline, -⟩ := mineLog_some hm
    rw [Transaction.isMined, hlogs]
    exact List.any_eq_true.mpr ⟨line, by simp, hline⟩
  · rw [recentBlock, hm]
  · rw [recentBlock, hm]

/-- A line of `mine` among those of the runtime. -/
theorem mine_line_parsed_demo : (⟨"s", false, none, some (["Program invoke [1]"] ++
    programLog (minedMessage 12 "A1" 25000000) :: ["Program success"])⟩ : Transaction).mineLog =
      some ⟨12, "A1", 25000000⟩ := by
  have hquiet : contains "Program invoke [1]".toList marker = false := by decide +kernel
  have hword : "A1".toList.all isWord = true := by decide +kernel
  refine (mine_line_parsed _).1 _ _ 12 25000000 "A1"
    ⟨fun c hc => List.all_eq_true.mp hword c hc, by decide⟩ (by decide) (by decide) rfl fun l hl => ?_
  rw [List.mem_singleton.mp hl]
  exact hquiet

end Equium.Explorer
