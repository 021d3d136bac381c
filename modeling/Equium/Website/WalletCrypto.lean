import Equium.Miner.Base64
import Equium.Schemes.Machine
import Equium.Schemes.Text
import Equium.Website.Proxy

/-! @src clients/website/src/lib/wallet-crypto.ts | name:Browser wallet | scheme:round-trip

    The secret key stands in `localStorage` under a key derived from the password. WebCrypto, bs58 and
    the Solana keypair are not the repository's and stay parameters (`WebCrypto`); `WebCrypto.Sound` is
    what the wallet relies on. `btoa` writes the standard base64, and `atob` reads it with the browser's
    leniency. -/

namespace Equium.Website
open Schemes Equium.Miner.Base64

/-- The third-party functions of the wallet. An error is its `message`. -/
structure WebCrypto (Key Keypair : Type) where
  /-- `importKey` and `deriveKey` with PBKDF2 over SHA-256: password bytes, salt, iterations. -/
  pbkdf2 : List UInt8 → List UInt8 → ℕ → Except String Key
  /-- `crypto.subtle.encrypt` with AES-GCM: key, iv, data. -/
  encrypt : Key → List UInt8 → List UInt8 → Except String (List UInt8)
  /-- `crypto.subtle.decrypt` with AES-GCM; nobody looks at what it rejects with. -/
  decrypt : Key → List UInt8 → List UInt8 → Option (List UInt8)
  /-- `keypair.secretKey`. -/
  secretKey : Keypair → Vector UInt8 64
  /-- `keypair.publicKey.toBase58()`. -/
  publicKey : Keypair → String
  /-- `Keypair.fromSeed`. -/
  fromSeed : List UInt8 → Except String Keypair
  /-- `Keypair.fromSecretKey`. -/
  fromSecretKey : List UInt8 → Except String Keypair
  /-- `bs58.encode`. -/
  encodeBase58 : List UInt8 → String
  /-- `bs58.decode`. -/
  decodeBase58 : List Char → Option (List UInt8)
  /-- `JSON.parse`, then `Uint8Array.from` where the value is an array. -/
  parseArray : List Char → Option (Option (List UInt8))
  /-- what `atob` throws -/
  atobError : String

structure EncryptedWallet where
  v : ℕ
  pubkey : String
  salt : String
  iv : String
  ct : String
  createdAt : ℕ
deriving DecidableEq, Repr

structure LoadedWallet (Keypair : Type) where
  pubkey : String
  keypair : Keypair

/-- What stands under `STORAGE_KEY`: the JSON text of a record stands for the record. -/
inductive StoredText where
  | absent
  | record (w : EncryptedWallet)
  /-- a text that is no JSON, or lacks a field -/
  | other
deriving DecidableEq, Repr

/-! ### Base64 in the browser -/

def bytesToB64 (b : List UInt8) : String := encode b

/-- The whitespace `atob` removes. -/
def isAsciiWhitespace (c : Char) : Bool :=
  c.toNat = 9 || c.toNat = 10 || c.toNat = 12 || c.toNat = 13 || c.toNat = 32

/-- One or two `=` at the end of a text of whole groups. -/
def dropPadding (s : List Char) : List Char :=
  if s.length % 4 = 0 then
    match s.reverse with
    | '=' :: '=' :: rest => rest.reverse
    | '=' :: rest => rest.reverse
    | _ => s
  else s

def sextetValue (c : Char) : Option UInt8 := if c ∈ alphabet then some (sextetOf c) else none

/-- Groups of four; the last may be short, and its bits to spare are not looked at. -/
def atobGroups : List Char → Option (List UInt8)
  | [] => some []
  | [_] => none
  | [c0, c1] => do
    let s0 ← sextetValue c0
    let s1 ← sextetValue c1
    some [byte0 s0 s1]
  | [c0, c1, c2] => do
    let s0 ← sextetValue c0
    let s1 ← sextetValue c1
    let s2 ← sextetValue c2
    some [byte0 s0 s1, byte1 s1 s2]
  | c0 :: c1 :: c2 :: c3 :: rest => do
    let s0 ← sextetValue c0
    let s1 ← sextetValue c1
    let s2 ← sextetValue c2
    let s3 ← sextetValue c3
    let bytes ← atobGroups rest
    some (byte0 s0 s1 :: byte1 s1 s2 :: byte2 s2 s3 :: bytes)

def b64ToBytes (s : String) : Option (List UInt8) :=
  atobGroups (dropPadding (s.toList.filter fun c => !isAsciiWhitespace c))

theorem sextetValue_digit {s : UInt8} (h : s < 64) : sextetValue (digit s) = some s := by
  rw [sextetValue, if_pos (digit_mem h), sextetOf_digit h]

theorem digit_ne_pad {s : UInt8} (h : s < 64) : digit s ≠ '=' := by
  intro he
  have hmem := digit_mem h
  rw [he] at hmem
  revert hmem
  decide

/-- Padding stands behind the last group only. -/
theorem dropPadding_group {c0 c1 c2 c3 : Char} (h3 : c3 ≠ '=') (s : List Char)
    (hs : s.length % 4 = 0) :
    dropPadding (c0 :: c1 :: c2 :: c3 :: s) = c0 :: c1 :: c2 :: c3 :: dropPadding s := by
  have hlen : (c0 :: c1 :: c2 :: c3 :: s).length % 4 = 0 := by
    simp only [List.length_cons]
    omega
  have hrev : (c0 :: c1 :: c2 :: c3 :: s).reverse = s.reverse ++ [c3, c2, c1, c0] := by simp
  rw [dropPadding, dropPadding, if_pos hlen, if_pos hs, hrev]
  rcases hr : s.reverse with _ | ⟨d, _ | ⟨d', rest⟩⟩
  · obtain rfl := List.reverse_eq_nil_iff.mp hr
    simp [h3]
  · -- one character alone is no whole group
    have hone : s.length = 1 := by rw [← List.length_reverse, hr]; rfl
    omega
  · by_cases hd : d = '='
    · by_cases hd' : d' = '='
      · subst hd hd'
        simp
      · subst hd
        simp [hd']
    · simp [hd]

theorem encodeChunks_length (bytes : List UInt8) : (encodeChunks bytes).length % 4 = 0 := by
  fun_induction encodeChunks bytes with
  | case1 => rfl
  | case2 b0 b1 b2 rest ih =>
    rw [List.length_append, encodeChunk]
    simp only [List.length_cons, List.length_nil]
    omega
  | case3 chunk hne hlong => simp [encodeChunk]

/-- The groups come back without their padding. -/
theorem atobGroups_encodeChunks (bytes : List UInt8) :
    atobGroups (dropPadding (encodeChunks bytes)) = some bytes := by
  fun_induction encodeChunks bytes with
  | case1 => rfl
  | case2 b0 b1 b2 rest ih =>
    have hgroup : encodeChunk [b0, b1, b2] = [digit (sextet0 b0), digit (sextet1 b0 b1),
        digit (sextet2 b1 b2), digit (sextet3 b2)] := rfl
    rw [hgroup]
    change atobGroups (dropPadding (_ :: _ :: _ :: _ :: encodeChunks rest)) = _
    rw [dropPadding_group (digit_ne_pad (sextet3_lt b2)) _ (encodeChunks_length rest), atobGroups,
      sextetValue_digit (sextet0_lt b0), sextetValue_digit (sextet1_lt b0 b1),
      sextetValue_digit (sextet2_lt b1 b2), sextetValue_digit (sextet3_lt b2), ih]
    change some (byte0 _ _ :: byte1 _ _ :: byte2 _ _ :: rest) = _
    rw [byte0_sextets, byte1_sextets, byte2_sextets]
  | case3 chunk hne hlong =>
    rcases chunk with _ | ⟨b0, _ | ⟨b1, _ | ⟨b2, rest⟩⟩⟩
    · exact absurd rfl hne
    · have hdrop : dropPadding [digit (sextet0 b0), digit (sextet1 b0 0), '=', '='] =
          [digit (sextet0 b0), digit (sextet1 b0 0)] := by simp [dropPadding]
      change atobGroups (dropPadding [digit (sextet0 b0), digit (sextet1 b0 0), '=', '=']) = _
      rw [hdrop, atobGroups, sextetValue_digit (sextet0_lt b0), sextetValue_digit (sextet1_lt b0 0)]
      change some [byte0 _ _] = _
      rw [byte0_sextets]
    · have hdrop : dropPadding [digit (sextet0 b0), digit (sextet1 b0 b1), digit (sextet2 b1 0), '='] =
          [digit (sextet0 b0), digit (sextet1 b0 b1), digit (sextet2 b1 0)] := by
        simp [dropPadding, digit_ne_pad (sextet2_lt b1 0)]
      change atobGroups (dropPadding [digit (sextet0 b0), digit (sextet1 b0 b1), digit (sextet2 b1 0),
        '=']) = _
      rw [hdrop, atobGroups, sextetValue_digit (sextet0_lt b0), sextetValue_digit (sextet1_lt b0 b1),
        sextetValue_digit (sextet2_lt b1 0)]
      change some [byte0 _ _, byte1 _ _] = _
      rw [byte0_sextets, byte1_sextets]
    · exact absurd rfl (hlong b0 b1 b2 rest)

/-- `atob` undoes `btoa`. -/
theorem b64ToBytes_bytesToB64 (bytes : List UInt8) : b64ToBytes (bytesToB64 bytes) = some bytes := by
  have hplain : (encodeChunks bytes).filter (fun c => !isAsciiWhitespace c) = encodeChunks bytes := by
    refine List.filter_eq_self.mpr fun c hc => ?_
    have hnot := (canonical_encodeChunks bytes).not_isWhitespace c hc
    revert hnot
    simp only [isWhitespace, isAsciiWhitespace]
    simp
    omega
  rw [b64ToBytes, bytesToB64, encode, String.toList_ofList, hplain, atobGroups_encodeChunks]

/-! ### Storing and unlocking -/

/-- `password.length`: the units of UTF-16. -/
def utf16Length (s : String) : ℕ := (s.toList.map fun c => if c.toNat < 65536 then 1 else 2).sum

/-- `PBKDF2_ITERS`. -/
def pbkdf2Iters : ℕ := 600000

/-- What is drawn and read while a keypair is stored. -/
structure WalletDraws where
  salt : Vector UInt8 16
  iv : Vector UInt8 12
  now : ℕ

section
variable {Key Keypair : Type} (c : WebCrypto Key Keypair)

def deriveKey (password : String) (salt : List UInt8) : Except String Key :=
  c.pbkdf2 password.toUTF8.data.toList salt pbkdf2Iters

def keypairFromUserInput (input : String) : Except String Keypair :=
  let s := Proxy.trim input.toList
  if s = [] then .error "private key is empty"
  else if s.head? = some '[' then
    match c.parseArray s with
    | none => .error "invalid JSON keypair"
    | some none => .error "expected a 64-byte secret-key array"
    | some (some arr) =>
      if arr.length ≠ 64 then .error "expected a 64-byte secret-key array" else c.fromSecretKey arr
  else
    match c.decodeBase58 s with
    | none => .error "invalid base58"
    | some decoded =>
      if decoded.length = 64 then c.fromSecretKey decoded
      else if decoded.length = 32 then c.fromSeed decoded
      else .error ("expected 64-byte secret key or 32-byte seed; got " ++ toString decoded.length ++
        " bytes")

/-- `persistWallet` up to `localStorage.setItem`. -/
def encryptWallet (keypair : Keypair) (password : String) (d : WalletDraws) :
    Except String EncryptedWallet := do
  require (decide (6 ≤ utf16Length password)) "password must be at least 6 characters"
  let aesKey ← deriveKey c password d.salt.toList
  let seed := (c.secretKey keypair).toList.take 32
  let ct ← c.encrypt aesKey d.iv.toList seed
  pure {
    v := 1
    pubkey := c.publicKey keypair
    salt := bytesToB64 d.salt.toList
    iv := bytesToB64 d.iv.toList
    ct := bytesToB64 ct
    createdAt := d.now }

def unlockWallet (wallet : EncryptedWallet) (password : String) :
    Except String (LoadedWallet Keypair) := do
  let salt ← okOr (b64ToBytes wallet.salt) c.atobError
  let iv ← okOr (b64ToBytes wallet.iv) c.atobError
  let ct ← okOr (b64ToBytes wallet.ct) c.atobError
  let aesKey ← deriveKey c password salt
  let seed ← okOr (c.decrypt aesKey iv ct) "wrong password"
  require (decide (seed.length = 32)) "corrupted wallet ciphertext"
  let keypair ← c.fromSeed seed
  require (decide (c.publicKey keypair = wallet.pubkey)) "decrypted seed doesn't match stored pubkey"
  pure ⟨wallet.pubkey, keypair⟩

end

/-- A record counts as a wallet when its version is 1 and no text in it is empty. -/
def loadStoredWallet : StoredText → Option EncryptedWallet
  | .record w => if w.v = 1 ∧ w.ct ≠ "" ∧ w.iv ≠ "" ∧ w.salt ≠ "" then some w else none
  | _ => none

section
variable {Key Keypair : Type} (c : WebCrypto Key Keypair)

def exportSecretKeyBase58 (keypair : Keypair) : String :=
  c.encodeBase58 (c.secretKey keypair).toList

/-! ### What the wallet relies on -/

/-- As documented: AES-GCM decryption undoes encryption under the same key and iv, and appends a tag; a
    keypair is determined by its seed, and by its secret key; base58 texts have letters and digits only
    and can be read back. -/
structure WebCrypto.Sound : Prop where
  opens : ∀ key iv plaintext ct, c.encrypt key iv plaintext = .ok ct →
    c.decrypt key iv ct = some plaintext ∧ ct.length = plaintext.length + 16
  seeded : ∀ kp, c.fromSeed ((c.secretKey kp).toList.take 32) = .ok kp
  secret : ∀ kp, c.fromSecretKey (c.secretKey kp).toList = .ok kp
  base58 : ∀ bytes, c.decodeBase58 (c.encodeBase58 bytes).toList = some bytes
  base58_empty : c.decodeBase58 [] = some []
  letters : ∀ bytes, ∀ ch ∈ (c.encodeBase58 bytes).toList, ch.isAlphanum = true

variable {c} {kp : Keypair} {password : String} {d : WalletDraws} {w : EncryptedWallet}

/-- What a keypair is stored as. -/
theorem encryptWallet_ok : encryptWallet c kp password d = .ok w ↔
    6 ≤ utf16Length password ∧ ∃ key, deriveKey c password d.salt.toList = .ok key ∧
      ∃ ct, c.encrypt key d.iv.toList ((c.secretKey kp).toList.take 32) = .ok ct ∧
        (⟨1, c.publicKey kp, bytesToB64 d.salt.toList, bytesToB64 d.iv.toList, bytesToB64 ct, d.now⟩ :
          EncryptedWallet) = w := by
  simp only [encryptWallet, bind_ok, require_ok, decide_eq_true_eq, pure_ok, exists_const]

/-- What a wallet unlocks to. -/
theorem unlockWallet_ok {l : LoadedWallet Keypair} : unlockWallet c w password = .ok l ↔
    ∃ salt, b64ToBytes w.salt = some salt ∧ ∃ iv, b64ToBytes w.iv = some iv ∧
      ∃ ct, b64ToBytes w.ct = some ct ∧ ∃ key, deriveKey c password salt = .ok key ∧
      ∃ seed, c.decrypt key iv ct = some seed ∧ seed.length = 32 ∧
      ∃ kp, c.fromSeed seed = .ok kp ∧ c.publicKey kp = w.pubkey ∧ ⟨w.pubkey, kp⟩ = l := by
  simp only [unlockWallet, bind_ok, require_ok, decide_eq_true_eq, okOr_ok, pure_ok, exists_const]

theorem bytesToB64_ne {bytes : List UInt8} (h : bytes ≠ []) : bytesToB64 bytes ≠ "" := by
  intro he
  have hback := b64ToBytes_bytesToB64 bytes
  rw [he] at hback
  exact h (Option.some.inj hback).symm

/-- A wallet that was stored is found again, and opens under its password to its keypair. -/
theorem WebCrypto.Sound.reopens (hc : c.Sound) (h : encryptWallet c kp password d = .ok w) :
    loadStoredWallet (.record w) = some w ∧ w.pubkey = c.publicKey kp ∧
      unlockWallet c w password = .ok ⟨w.pubkey, kp⟩ := by
  obtain ⟨-, key, hkey, ct, hct, rfl⟩ := encryptWallet_ok.mp h
  obtain ⟨hopen, hlen⟩ := hc.opens _ _ _ _ hct
  have hseed : ((c.secretKey kp).toList.take 32).length = 32 := by simp
  refine ⟨?_, rfl, ?_⟩
  · rw [loadStoredWallet, if_pos]
    refine ⟨rfl, bytesToB64_ne ?_, bytesToB64_ne ?_, bytesToB64_ne ?_⟩
    · rintro rfl
      simp at hlen
    · exact fun he => by simpa using congrArg List.length he
    · exact fun he => by simpa using congrArg List.length he
  · rw [unlockWallet_ok]
    exact ⟨_, b64ToBytes_bytesToB64 _, _, b64ToBytes_bytesToB64 _, _, b64ToBytes_bytesToB64 _, key, hkey,
      _, hopen, hseed, kp, hc.seeded kp, rfl, rfl⟩

/-- What is exported can be imported. -/
theorem WebCrypto.Sound.imports (hc : c.Sound) (kp : Keypair) :
    keypairFromUserInput c (exportSecretKeyBase58 c kp) = .ok kp := by
  have hplain : ∀ ch ∈ (exportSecretKeyBase58 c kp).toList, Proxy.isSpace ch = false ∧ ch ≠ '[' := by
    intro ch hch
    obtain ⟨hlow, hhigh, hbracket⟩ := alphanum_bounds (hc.letters _ ch hch)
    refine ⟨?_, hbracket⟩
    simp only [Proxy.isSpace, decide_eq_false_iff_not]
    simp
    omega
  have hdecoded : c.decodeBase58 (exportSecretKeyBase58 c kp).toList = some (c.secretKey kp).toList :=
    hc.base58 _
  have hne : (exportSecretKeyBase58 c kp).toList ≠ [] := by
    intro he
    rw [he, hc.base58_empty] at hdecoded
    simpa using congrArg List.length (Option.some.inj hdecoded)
  have hhead : (exportSecretKeyBase58 c kp).toList.head? ≠ some '[' := fun h =>
    (hplain '[' (List.mem_of_mem_head? h)).2 rfl
  unfold keypairFromUserInput
  rw [Proxy.trim, trimmed_eq_self fun ch hch => (hplain ch hch).1]
  dsimp only
  rw [if_neg hne, if_neg hhead, hdecoded]
  dsimp only
  rw [if_pos (c.secretKey kp).length_toList]
  exact hc.secret kp

/-- Whatever password opens a wallet, it opens the key that is named in it. -/
theorem unlocked_pubkey {l : LoadedWallet Keypair} (h : unlockWallet c w password = .ok l) :
    l.pubkey = w.pubkey ∧ c.publicKey l.keypair = w.pubkey := by
  obtain ⟨-, -, -, -, -, -, -, -, -, -, -, kp, -, hpub, rfl⟩ := unlockWallet_ok.mp h
  exact ⟨rfl, hpub⟩

end

end Equium.Website
