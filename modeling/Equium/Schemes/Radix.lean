import Mathlib.Data.Nat.Digits.Lemmas

/-! Scheme radix: a numeral rewritten in another base, its leading zeros kept.

    `transcode a b` reads a list of digits, most significant first, in base `a` and writes the number in
    base `b` behind as many zeros. Read back it is the same list (`transcode_transcode`): neither the
    number nor the leading zeros are lost. With an alphabet for base 58 this is the text form of keys. -/

namespace Equium.Schemes

/-- The zeros a list begins with. -/
def leadingZeros (ds : List ℕ) : ℕ := (ds.takeWhile (· == 0)).length

/-- From base `a` to base `b`, most significant digit first. -/
def transcode (a b : ℕ) (ds : List ℕ) : List ℕ :=
  List.replicate (leadingZeros ds) 0 ++ (Nat.digits b (Nat.ofDigits a ds.reverse)).reverse

/-- A list is its leading zeros and a rest that begins with no zero. -/
theorem split_zeros (ds : List ℕ) : ∃ rest, ds = List.replicate (leadingZeros ds) 0 ++ rest ∧
    rest.head? ≠ some 0 := by
  refine ⟨ds.dropWhile (· == 0), ?_, fun h => ?_⟩
  · have hzeros : ds.takeWhile (· == 0) = List.replicate (leadingZeros ds) 0 :=
      List.eq_replicate_iff.mpr ⟨rfl, fun d hd => by
        simpa using List.all_eq_true.mp (List.all_takeWhile (p := (· == 0)) (l := ds)) d hd⟩
    rw [← hzeros, List.takeWhile_append_dropWhile]
  · have hnot := List.head?_dropWhile_not (· == 0) ds
    rw [h] at hnot
    simp at hnot

theorem leadingZeros_append {z : ℕ} {rest : List ℕ} (h : rest.head? ≠ some 0) :
    leadingZeros (List.replicate z 0 ++ rest) = z := by
  have hrest : rest.takeWhile (· == 0) = [] := by
    cases rest with
    | nil => rfl
    | cons d ds =>
      refine List.takeWhile_cons_of_neg fun hd => h ?_
      simpa using hd
  rw [leadingZeros, List.takeWhile_append_of_pos (by simp), hrest, List.append_nil,
    List.length_replicate]

/-- Leading zeros do not count. -/
theorem ofDigits_zeros (a z : ℕ) (rest : List ℕ) :
    Nat.ofDigits a (List.replicate z 0 ++ rest).reverse = Nat.ofDigits a rest.reverse := by
  rw [List.reverse_append, List.reverse_replicate, Nat.ofDigits_append_replicate_zero]

theorem transcode_append {a b z : ℕ} {rest : List ℕ} (h : rest.head? ≠ some 0) :
    transcode a b (List.replicate z 0 ++ rest) =
      List.replicate z 0 ++ (Nat.digits b (Nat.ofDigits a rest.reverse)).reverse := by
  rw [transcode, leadingZeros_append h, ofDigits_zeros]

/-- The digits of a number begin with no zero. -/
theorem digits_head (b n : ℕ) : (Nat.digits b n).reverse.head? ≠ some 0 := by
  rw [List.head?_reverse]
  intro h
  have hne : Nat.digits b n ≠ [] := by
    intro he
    rw [he] at h
    cases h
  have hpos : n ≠ 0 := fun he => hne (by rw [he, Nat.digits_zero])
  rw [List.getLast?_eq_some_getLast hne] at h
  exact Nat.getLast_digit_ne_zero b hpos (Option.some.inj h)

/-- ROUND TRIP: no digit is lost on the way to another base and back. -/
theorem transcode_transcode {a b : ℕ} (ha : 1 < a) {ds : List ℕ}
    (hd : ∀ d ∈ ds, d < a) : transcode b a (transcode a b ds) = ds := by
  obtain ⟨rest, hsplit, hrest⟩ := split_zeros ds
  have hdigits : Nat.digits a (Nat.ofDigits a rest.reverse) = rest.reverse := by
    refine Nat.digits_ofDigits a ha _ (fun d hmem => hd d ?_) fun hne => ?_
    · rw [hsplit]
      exact List.mem_append_right _ (List.mem_reverse.mp hmem)
    · intro hlast
      refine hrest ?_
      rw [← List.reverse_reverse rest, List.head?_reverse, List.getLast?_eq_some_getLast hne, hlast]
  rw [hsplit, transcode_append hrest, transcode_append (digits_head b _), List.reverse_reverse,
    Nat.ofDigits_digits, hdigits, List.reverse_reverse]

/-- The digits written are digits of the new base. -/
theorem transcode_lt {a b : ℕ} (hb : 1 < b) (ds : List ℕ) : ∀ d ∈ transcode a b ds, d < b := by
  intro d hmem
  rcases List.mem_append.mp hmem with hzero | hdigit
  · rw [List.eq_of_mem_replicate hzero]
    omega
  · exact Nat.digits_lt_base hb (List.mem_reverse.mp hdigit)

/-! ### Base 58 -/

namespace Base58

def alphabet : List Char := "123456789ABCDEFGHJKLMNPQRSTUVWXYZabcdefghijkmnopqrstuvwxyz".toList

/-- The text of a byte string. -/
def encode (bs : List UInt8) : List Char :=
  (transcode 256 58 (bs.map UInt8.toNat)).map fun d => alphabet.getD d '1'

/-- The byte string of a text, if all of it is in the alphabet. -/
def decode (cs : List Char) : Option (List UInt8) :=
  if cs.all (· ∈ alphabet) then
    some ((transcode 58 256 (cs.map fun c => alphabet.idxOf c)).map UInt8.ofNat)
  else none

theorem digit_char {d : ℕ} (hd : d < 58) : alphabet.getD d '1' ∈ alphabet ∧
    alphabet.idxOf (alphabet.getD d '1') = d := by
  revert d
  decide +kernel

theorem encode_mem (bs : List UInt8) : ∀ c ∈ encode bs, c ∈ alphabet := by
  intro c hc
  obtain ⟨d, hd, rfl⟩ := List.mem_map.mp hc
  exact (digit_char (transcode_lt (by decide) _ d hd)).1

theorem decode_encode (bs : List UInt8) : decode (encode bs) = some bs := by
  have hall : (encode bs).all (· ∈ alphabet) = true :=
    List.all_eq_true.mpr fun c hc => decide_eq_true (encode_mem bs c hc)
  have hdigits : (encode bs).map (fun c => alphabet.idxOf c) =
      transcode 256 58 (bs.map UInt8.toNat) := by
    rw [encode, List.map_map]
    exact (List.map_congr_left fun d hd => (digit_char (transcode_lt (by decide) _ d hd)).2).trans
      (List.map_id _)
  have hbytes : ∀ d ∈ bs.map UInt8.toNat, d < 256 := by
    intro d hd
    obtain ⟨b, -, rfl⟩ := List.mem_map.mp hd
    exact UInt8.toNat_lt b
  rw [decode, if_pos hall, hdigits, transcode_transcode (by decide) hbytes, List.map_map]
  refine congrArg some ((List.map_congr_left fun b _ => ?_).trans (List.map_id _))
  exact UInt8.ofNat_toNat

end Base58

end Equium.Schemes
