import Equium.Schemes.Words

/-! Scheme blake2b: the BLAKE2b hash function, over any representation of its words.

    The mixing function uses its words only through addition, XOR and rotation (`WordOps`). A map
    that respects the three (`WordOps.Hom`) therefore carries a run of the rounds on one
    representation to a run on the other (`rounds_map`). `F` is the compression function on 64-bit
    words, `digest` the sequential hash of a byte string. -/

namespace Equium.Schemes.Blake2b

variable {W W' : Type*}

/-- What the rounds do with words. -/
structure WordOps (W : Type*) where
  add : W → W → W
  xor : W → W → W
  rotr : W → ℕ → W

/-- The four rotations of the mixing function. -/
def rotations : List ℕ := [32, 24, 16, 63]

section
variable (o : WordOps W)

/-- `v[a] := v[a] + v[b]`. -/
def addTo (v : Vector W 16) (a b : Fin 16) : Vector W 16 := v.set a (o.add v[a] v[b])

/-- `v[a] := v[a] + v[b] + x`. -/
def addWord (v : Vector W 16) (a b : Fin 16) (x : W) : Vector W 16 :=
  v.set a (o.add (o.add v[a] v[b]) x)

/-- `v[d] := (v[d] ^ v[a]) >>> n`. -/
def xorRotr (v : Vector W 16) (d a : Fin 16) (n : ℕ) : Vector W 16 :=
  v.set d (o.rotr (o.xor v[d] v[a]) n)

/-- The mixing function `G`. -/
def mix (v : Vector W 16) (a b c d : Fin 16) (x y : W) : Vector W 16 :=
  let v := addWord o v a b x
  let v := xorRotr o v d a 32
  let v := addTo o v c d
  let v := xorRotr o v b c 24
  let v := addWord o v a b y
  let v := xorRotr o v d a 16
  let v := addTo o v c d
  xorRotr o v b c 63

/-- One round: the columns, then the diagonals, with the message in the order `s`. -/
def round (m : Vector W 16) (v : Vector W 16) (s : Vector (Fin 16) 16) : Vector W 16 :=
  let v := mix o v 0 4 8 12 m[s[0]] m[s[1]]
  let v := mix o v 1 5 9 13 m[s[2]] m[s[3]]
  let v := mix o v 2 6 10 14 m[s[4]] m[s[5]]
  let v := mix o v 3 7 11 15 m[s[6]] m[s[7]]
  let v := mix o v 0 5 10 15 m[s[8]] m[s[9]]
  let v := mix o v 1 6 11 12 m[s[10]] m[s[11]]
  let v := mix o v 2 7 8 13 m[s[12]] m[s[13]]
  mix o v 3 4 9 14 m[s[14]] m[s[15]]

def rounds (m : Vector W 16) (schedule : List (Vector (Fin 16) 16)) (v : Vector W 16) :
    Vector W 16 :=
  schedule.foldl (round o m) v

/-- `v[i] := g v[i]`. -/
def modify {n : ℕ} (v : Vector W n) (i : ℕ) (g : W → W) : Vector W n :=
  v.mapIdx fun j w => if j = i then g w else w

/-- A row of a table of message orders. -/
def order (s : List ℕ) : Vector (Fin 16) 16 := Vector.ofFn fun i => Fin.ofNat 16 (s.getD i 0)

/-- `h[i] ^ v[i] ^ v[i + 8]`. -/
def finish (h : Vector W 8) (v : Vector W 16) : Vector W 8 :=
  Vector.ofFn fun i => o.xor (o.xor h[i] v[i.val]) v[i.val + 8]

end

/-! ### Representations -/

/-- A map between representations that respects what the rounds do. -/
structure WordOps.Hom (o : WordOps W) (o' : WordOps W') (f : W → W') : Prop where
  add : ∀ a b, f (o.add a b) = o'.add (f a) (f b)
  xor : ∀ a b, f (o.xor a b) = o'.xor (f a) (f b)
  rotr : ∀ a, ∀ n ∈ rotations, f (o.rotr a n) = o'.rotr (f a) n

section
variable {o : WordOps W} {o' : WordOps W'} {f : W → W'}

theorem addTo_map (h : o.Hom o' f) (v : Vector W 16) (a b : Fin 16) :
    (addTo o v a b).map f = addTo o' (v.map f) a b := by
  simp [addTo, h.add]

theorem addWord_map (h : o.Hom o' f) (v : Vector W 16) (a b : Fin 16) (x : W) :
    (addWord o v a b x).map f = addWord o' (v.map f) a b (f x) := by
  simp [addWord, h.add]

theorem xorRotr_map (h : o.Hom o' f) (v : Vector W 16) (d a : Fin 16) {n : ℕ}
    (hn : n ∈ rotations) : (xorRotr o v d a n).map f = xorRotr o' (v.map f) d a n := by
  simp [xorRotr, h.xor, h.rotr _ n hn]

theorem mix_map (h : o.Hom o' f) (v : Vector W 16) (a b c d : Fin 16) (x y : W) :
    (mix o v a b c d x y).map f = mix o' (v.map f) a b c d (f x) (f y) := by
  have h32 : 32 ∈ rotations := by decide
  have h24 : 24 ∈ rotations := by decide
  have h16 : 16 ∈ rotations := by decide
  have h63 : 63 ∈ rotations := by decide
  simp only [mix, addWord_map h, addTo_map h, xorRotr_map h _ _ _ h32, xorRotr_map h _ _ _ h24,
    xorRotr_map h _ _ _ h16, xorRotr_map h _ _ _ h63]

theorem round_map (h : o.Hom o' f) (m v : Vector W 16) (s : Vector (Fin 16) 16) :
    (round o m v s).map f = round o' (m.map f) (v.map f) s := by
  simp only [round, mix_map h, Fin.getElem_fin, Vector.getElem_map]

/-- Run lemma: the rounds on one representation are the rounds on the other. -/
theorem rounds_map (h : o.Hom o' f) (m : Vector W 16) (schedule : List (Vector (Fin 16) 16))
    (v : Vector W 16) :
    (rounds o m schedule v).map f = rounds o' (m.map f) schedule (v.map f) := by
  induction schedule generalizing v with
  | nil => rfl
  | cons s schedule ih =>
    rw [rounds, List.foldl_cons, ← rounds, ih, round_map h, rounds, rounds, List.foldl_cons]

theorem modify_map {n : ℕ} {g : W → W} {g' : W' → W'} (hg : ∀ w, f (g w) = g' (f w))
    (v : Vector W n) (i : ℕ) : (modify v i g).map f = modify (v.map f) i g' := by
  ext j hj
  simp [modify, apply_ite f, hg]

theorem modify_id {n : ℕ} {g : W → W} (hg : ∀ w, g w = w) (v : Vector W n) (i : ℕ) :
    modify v i g = v := by
  ext j hj
  simp [modify, hg]

theorem finish_map (h : o.Hom o' f) (hs : Vector W 8) (v : Vector W 16) :
    (finish o hs v).map f = finish o' (hs.map f) (v.map f) := by
  ext i hi
  simp [finish, h.xor]

end

/-! ### The 64-bit words -/

def wordOps : WordOps UInt64 where
  add a b := a + b
  xor a b := a ^^^ b
  rotr a n := ⟨a.toBitVec.rotateRight n⟩

/-- The initialisation vector. -/
def iv : Vector UInt64 8 :=
  #v[0x6a09e667f3bcc908, 0xbb67ae8584caa73b, 0x3c6ef372fe94f82b, 0xa54ff53a5f1d36f1,
    0x510e527fade682d1, 0x9b05688c2b3e6c1f, 0x1f83d9abfb41bd6b, 0x5be0cd19137e2179]

/-- The message orders of rounds 0 to 9; the next rounds start over. -/
def sigma : List (List ℕ) :=
  [[0, 1, 2, 3, 4, 5, 6, 7, 8, 9, 10, 11, 12, 13, 14, 15],
    [14, 10, 4, 8, 9, 15, 13, 6, 1, 12, 0, 2, 11, 7, 5, 3],
    [11, 8, 12, 0, 5, 2, 15, 13, 10, 14, 3, 6, 7, 1, 9, 4],
    [7, 9, 3, 1, 13, 12, 11, 14, 2, 6, 5, 10, 4, 0, 15, 8],
    [9, 0, 5, 7, 2, 4, 10, 15, 14, 1, 11, 12, 6, 8, 3, 13],
    [2, 12, 6, 10, 0, 11, 8, 3, 4, 13, 7, 5, 15, 14, 1, 9],
    [12, 5, 1, 15, 14, 13, 4, 10, 0, 7, 6, 3, 9, 2, 8, 11],
    [13, 11, 7, 14, 12, 1, 3, 9, 5, 0, 15, 4, 8, 6, 2, 10],
    [6, 15, 14, 9, 11, 3, 0, 8, 12, 2, 13, 7, 1, 4, 10, 5],
    [10, 2, 8, 4, 7, 6, 1, 5, 15, 11, 9, 14, 3, 12, 13, 0]]

/-- The message orders of the twelve rounds. -/
def schedule : List (Vector (Fin 16) 16) :=
  (List.range 12).map fun i => order (sigma.getD (i % 10) [])

/-- The compression function: `t` bytes are hashed with this block, and `last` marks the last. -/
def F (h : Vector UInt64 8) (m : Vector UInt64 16) (t : ℕ) (last : Bool) : Vector UInt64 8 :=
  let v := h ++ iv
  let v := modify v 12 (· ^^^ UInt64.ofNat t)
  let v := modify v 13 (· ^^^ UInt64.ofNat (t / 2 ^ 64))
  let v := if last then modify v 14 (· ^^^ 0xFFFFFFFFFFFFFFFF) else v
  finish wordOps h (rounds wordOps m schedule v)

/-- The first `k` words of a byte string. -/
def words8 (k : ℕ) (bs : List UInt8) : Vector UInt64 k :=
  Vector.ofFn fun i => word8 ((bs.drop (8 * i)).take 8)

/-- The last block, below the `2^64`th byte. -/
theorem F_last (h : Vector UInt64 8) (m : Vector UInt64 16) {t : ℕ} (ht : t < 2 ^ 64) :
    F h m t true = finish wordOps h (rounds wordOps m schedule
      (modify (modify (h ++ iv) 12 (· ^^^ UInt64.ofNat t)) 14 (· ^^^ 0xFFFFFFFFFFFFFFFF))) := by
  have hhi : ∀ w : UInt64, w ^^^ UInt64.ofNat (t / 2 ^ 64) = w := fun w => by
    rw [Nat.div_eq_of_lt ht]
    exact UInt64.xor_zero
  rw [F, modify_id hhi, if_pos rfl]

def zeros (k : ℕ) : List UInt8 := List.replicate k 0

/-- The parameter block of sequential hashing without key and salt: digest length, key length,
    fanout, depth, the parameters of tree hashing, the salt, the personalisation. -/
def paramBlock (len : ℕ) (personal : List UInt8) : List UInt8 :=
  [UInt8.ofNat len, 0, 1, 1] ++ zeros 28 ++ zeros 16 ++ personal ++ zeros (16 - personal.length)

/-- The state before the first block. -/
def initial (len : ℕ) (personal : List UInt8) : Vector UInt64 8 :=
  Vector.zipWith (· ^^^ ·) iv (words8 8 (paramBlock len personal))

/-- The blocks of 128 bytes, the last one padded with zeros; `t` bytes are done. -/
def absorb (h : Vector UInt64 8) (t : ℕ) (data : List UInt8) : Vector UInt64 8 :=
  if data.length ≤ 128 then
    F h (words8 16 (data ++ zeros (128 - data.length))) (t + data.length) true
  else absorb (F h (words8 16 (data.take 128)) (t + 128) false) (t + 128) (data.drop 128)
termination_by data.length
decreasing_by simp only [List.length_drop]; omega

/-- The first `len` bytes of the final state. -/
def digest (len : ℕ) (personal data : List UInt8) : List UInt8 :=
  ((absorb (initial len personal) 0 data).toList.flatMap bytes8).take len

/-- Data of one block. -/
theorem digest_short {data : List UInt8} (len : ℕ) (personal : List UInt8)
    (h : data.length ≤ 128) :
    digest len personal data = ((F (initial len personal)
      (words8 16 (data ++ zeros (128 - data.length))) data.length true).toList.flatMap
        bytes8).take len := by
  rw [digest, absorb, if_pos h, Nat.zero_add]

end Equium.Schemes.Blake2b
