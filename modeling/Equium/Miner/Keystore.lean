import Equium.Miner.Base64
import Equium.Core.Challenge

/-! @src clients/desktop-miner/src-tauri/src/keystore.rs | name:Encrypted keystore | scheme:round-trip

    The secret key stands on disk under a key derived from the password. Argon2, AES-GCM and the Solana
    keypair are third-party crates and stay parameters (`Crypto`); `Crypto.Sound` is what the keystore
    relies on. An `anyhow` error is its chain of messages, outermost first. -/

namespace Equium.Miner
open Schemes Equium.Core Base64

/-- The third-party functions of the keystore. -/
structure Crypto (Params Cipher Keypair : Type) where
  /-- `Params::new(m_cost, t_cost, p_cost, Some(output_len))`. -/
  params : ℕ → ℕ → ℕ → ℕ → Except String Params
  /-- `Argon2::new(Algorithm::Argon2id, Version::V0x13, params).hash_password_into(password, salt, out)`. -/
  hashPassword : Params → List UInt8 → List UInt8 → Except String Bytes32
  /-- `Aes256Gcm::new_from_slice(key)`. -/
  newCipher : List UInt8 → Except String Cipher
  /-- `cipher.encrypt(nonce, plaintext)`. -/
  encrypt : Cipher → List UInt8 → List UInt8 → Except String (List UInt8)
  /-- `cipher.decrypt(nonce, ciphertext)`. -/
  decrypt : Cipher → List UInt8 → List UInt8 → Except String (List UInt8)
  /-- `Keypair::to_bytes`. -/
  toBytes : Keypair → Vector UInt8 64
  /-- `kp.pubkey().to_string()`. -/
  pubkey : Keypair → String
  /-- `Keypair::from_seed(seed)`. -/
  fromSeed : List UInt8 → Except String Keypair

structure EncryptedKeystore where
  version : UInt32
  pubkey : String
  /-- Argon2 salt (16 bytes). -/
  saltB64 : String
  /-- AES-GCM nonce (12 bytes). -/
  nonceB64 : String
  /-- Ciphertext of the 32-byte seed. -/
  ciphertextB64 : String
  createdAtUnixMs : Int64
deriving DecidableEq, Repr

/-! ### Errors -/

/-- `.map_err(|e| anyhow!("what: {e}"))`. -/
def mapErr {α : Type} (what : String) (x : Except String α) : Except (List String) α :=
  x.mapError fun e => [what ++ ": " ++ e]

/-- `.context(what)`. -/
def context {α : Type} (what : String) (x : Except (List String) α) : Except (List String) α :=
  x.mapError fun chain => what :: chain

@[simp] theorem mapError_ok {ε ε' α : Type} {x : Except ε α} {f : ε → ε'} {a : α} :
    x.mapError f = .ok a ↔ x = .ok a := by
  cases x <;> simp [Except.mapError]

@[simp] theorem mapErr_ok {α : Type} {what : String} {x : Except String α} {a : α} :
    mapErr what x = .ok a ↔ x = .ok a := mapError_ok

@[simp] theorem context_ok {α : Type} {what : String} {x : Except (List String) α} {a : α} :
    context what x = .ok a ↔ x = .ok a := mapError_ok

/-! ### keystore.rs -/

def b64encode (bytes : List UInt8) : String := encode bytes

def b64decode (s : String) : Except (List String) (List UInt8) := mapErr "base64 decode" (decode s)

section
variable {Params Cipher Keypair : Type} (c : Crypto Params Cipher Keypair)

def deriveAesKey (password : String) (salt : List UInt8) : Except (List String) Bytes32 := do
  let params ← mapErr "argon2 params" (c.params (64 * 1024) 4 1 32)
  mapErr "argon2 hash" (c.hashPassword params password.toUTF8.data.toList salt)

/-- `encrypt_keypair`, with the salt and the nonce drawn and the time read. -/
def encryptKeypair (kp : Keypair) (password : String) (salt : Vector UInt8 16)
    (nonce : Vector UInt8 12) (chronoUnixMs : Int64) : Except (List String) EncryptedKeystore := do
  require (8 ≤ password.utf8ByteSize) ["password must be at least 8 characters"]
  let keyBytes ← deriveAesKey c password salt.toList
  let cipher ← mapErr "aes init" (c.newCipher keyBytes.toList)
  let seed := (c.toBytes kp).toList.take 32
  let ciphertext ← mapErr "aes encrypt" (c.encrypt cipher nonce.toList seed)
  pure {
    version := 1
    pubkey := c.pubkey kp
    saltB64 := b64encode salt.toList
    nonceB64 := b64encode nonce.toList
    ciphertextB64 := b64encode ciphertext
    createdAtUnixMs := chronoUnixMs }

def decryptKeystore (store : EncryptedKeystore) (password : String) :
    Except (List String) Keypair := do
  let salt ← context "salt decode" (b64decode store.saltB64)
  let nonce ← context "nonce decode" (b64decode store.nonceB64)
  let ct ← context "ct decode" (b64decode store.ciphertextB64)
  require (nonce.length = 12) ["nonce must be 12 bytes"]
  let keyBytes ← deriveAesKey c password salt
  let cipher ← mapErr "aes init" (c.newCipher keyBytes.toList)
  let seed ← (c.decrypt cipher nonce ct).mapError fun _ => ["wrong password"]
  require (seed.length = 32) ["corrupt ciphertext"]
  let kp ← mapErr "keypair from seed" (c.fromSeed seed)
  require (c.pubkey kp = store.pubkey) ["decrypted seed doesn't match stored pubkey"]
  pure kp

/-! ### What the keystore relies on -/

/-- The crates as documented: Argon2 takes any password below its 2^32 bytes, AES-GCM decryption undoes
    encryption under the same key and nonce, and a keypair is determined by its seed. -/
structure Crypto.Sound : Prop where
  params_ok : ∃ params, c.params (64 * 1024) 4 1 32 = .ok params
  hash_ok : ∀ params password salt, c.params (64 * 1024) 4 1 32 = .ok params →
    password.length < 2 ^ 32 → salt.length = 16 → ∃ key, c.hashPassword params password salt = .ok key
  cipher_ok : ∀ key, key.length = 32 → ∃ cipher, c.newCipher key = .ok cipher
  opens : ∀ cipher nonce plaintext, nonce.length = 12 → plaintext.length ≤ 2 ^ 36 →
    ∃ ciphertext, c.encrypt cipher nonce plaintext = .ok ciphertext ∧
      c.decrypt cipher nonce ciphertext = .ok plaintext
  seeded : ∀ kp, c.fromSeed ((c.toBytes kp).toList.take 32) = .ok kp

@[simp] theorem b64decode_b64encode (bytes : List UInt8) :
    b64decode (b64encode bytes) = .ok bytes := by
  rw [b64decode, b64encode, mapErr_ok, decode_encode]

variable {c} {kp : Keypair} {password : String} {salt : Vector UInt8 16} {nonce : Vector UInt8 12}
  {now : Int64} {store : EncryptedKeystore}

/-- What a keypair is stored as. -/
theorem encryptKeypair_ok : encryptKeypair c kp password salt nonce now = .ok store ↔
    8 ≤ password.utf8ByteSize ∧ ∃ key, deriveAesKey c password salt.toList = .ok key ∧
      ∃ cipher, c.newCipher key.toList = .ok cipher ∧
      ∃ ct, c.encrypt cipher nonce.toList ((c.toBytes kp).toList.take 32) = .ok ct ∧
        (⟨1, c.pubkey kp, b64encode salt.toList, b64encode nonce.toList, b64encode ct, now⟩ :
          EncryptedKeystore) = store := by
  simp only [encryptKeypair, bind_ok, require_ok, decide_eq_true_eq, mapErr_ok, pure_ok, exists_const]

/-- What a store opens to. -/
theorem decryptKeystore_ok : decryptKeystore c store password = .ok kp ↔
    ∃ salt, b64decode store.saltB64 = .ok salt ∧ ∃ nonce, b64decode store.nonceB64 = .ok nonce ∧
      ∃ ct, b64decode store.ciphertextB64 = .ok ct ∧ nonce.length = 12 ∧
      ∃ key, deriveAesKey c password salt = .ok key ∧
      ∃ cipher, c.newCipher key.toList = .ok cipher ∧
      ∃ seed, c.decrypt cipher nonce ct = .ok seed ∧ seed.length = 32 ∧
        c.fromSeed seed = .ok kp ∧ c.pubkey kp = store.pubkey := by
  simp only [decryptKeystore, bind_ok, require_ok, decide_eq_true_eq, mapErr_ok, mapError_ok, context_ok,
    pure_ok, exists_const, exists_eq_right_right]

/-- Where the password hash gives a key, the keypair is stored and the store opens to it. -/
theorem Crypto.Sound.store_opens (hc : c.Sound) {key : Bytes32}
    (hkey : deriveAesKey c password salt.toList = .ok key) (hlen : 8 ≤ password.utf8ByteSize)
    (kp : Keypair) (nonce : Vector UInt8 12) (now : Int64) :
    ∃ store, encryptKeypair c kp password salt nonce now = .ok store ∧
      decryptKeystore c store password = .ok kp := by
  have hseed : ((c.toBytes kp).toList.take 32).length = 32 := by simp
  obtain ⟨cipher, hcipher⟩ := hc.cipher_ok key.toList key.length_toList
  obtain ⟨ct, hct, hopen⟩ := hc.opens cipher nonce.toList ((c.toBytes kp).toList.take 32)
    nonce.length_toList (by rw [hseed]; norm_num)
  refine ⟨_, encryptKeypair_ok.mpr ⟨hlen, key, hkey, cipher, hcipher, ct, hct, rfl⟩, ?_⟩
  rw [decryptKeystore_ok]
  exact ⟨_, b64decode_b64encode _, _, b64decode_b64encode _, _, b64decode_b64encode _,
    nonce.length_toList, key, hkey, cipher, hcipher, _, hopen, hseed, hc.seeded kp, rfl⟩

/-- Without a key nothing is stored. -/
theorem encryptKeypair_error {e : List String} (hkey : deriveAesKey c password salt.toList = .error e)
    (hlen : 8 ≤ password.utf8ByteSize) :
    encryptKeypair c kp password salt nonce now = .error e := by
  rw [encryptKeypair, bind_of_ok (require_of (decide_eq_true hlen)), hkey]
  rfl

/-- Argon2 gives a key for every password it has room for. -/
theorem Crypto.Sound.key_of_password (hc : c.Sound) (salt : Vector UInt8 16)
    (hlen : password.utf8ByteSize < 2 ^ 32) : ∃ key, deriveAesKey c password salt.toList = .ok key := by
  obtain ⟨params, hparams⟩ := hc.params_ok
  have hbytes : password.toUTF8.data.toList.length < 2 ^ 32 := by simpa using hlen
  obtain ⟨key, hkey⟩ := hc.hash_ok params _ salt.toList hparams hbytes salt.length_toList
  refine ⟨key, bind_ok.mpr ⟨params, ?_, ?_⟩⟩
  · rwa [mapErr_ok]
  · rwa [mapErr_ok]

variable (c)

/-- THE KEYSTORE GIVES BACK THE KEY IT STORED: bytes come back from their base64 text whatever
    whitespace is put into it. A stored keypair opens under its password, whenever the password hash
    gives a key and so for every password Argon2 takes; and what a store opens to has the pubkey that
    is stored with it. -/
theorem keystore_gives_back (hc : c.Sound) :
    (∀ bytes s, Spaced (encode bytes).toList s.toList → decode s = .ok bytes) ∧
    (∀ kp password salt nonce now, 8 ≤ password.utf8ByteSize →
      (encryptKeypair c kp password salt nonce now >>= fun store => decryptKeystore c store password) =
        (deriveAesKey c password salt.toList).map fun _ => kp) ∧
    (∀ kp password salt nonce now, 8 ≤ password.utf8ByteSize → password.utf8ByteSize < 2 ^ 32 →
      ∃ store, encryptKeypair c kp password salt nonce now = .ok store ∧
        decryptKeystore c store password = .ok kp) ∧
    ∀ store password kp, decryptKeystore c store password = .ok kp → c.pubkey kp = store.pubkey := by
  refine ⟨fun bytes s h => h.decodes, ?_, ?_, ?_⟩
  · intro kp password salt nonce now hlen
    cases hkey : deriveAesKey c password salt.toList with
    | error e =>
      rw [encryptKeypair_error hkey hlen]
      rfl
    | ok key =>
      obtain ⟨store, hstore, hopen⟩ := hc.store_opens hkey hlen kp nonce now
      rw [bind_of_ok hstore, hopen]
      rfl
  · intro kp password salt nonce now hlen hmax
    obtain ⟨key, hkey⟩ := hc.key_of_password salt hmax
    exact hc.store_opens hkey hlen kp nonce now
  · intro store password kp h
    obtain ⟨-, -, -, -, -, -, -, -, -, -, -, -, -, -, -, hpub⟩ := decryptKeystore_ok.mp h
    exact hpub

end

namespace Demo

/-- `Argon2id("password", [0; 16])`. -/
def derivedKey : Bytes32 :=
  #v[22, 93, 125, 106, 17, 139, 219, 20, 182, 7, 140, 213, 146, 163, 194, 0,
    231, 104, 156, 71, 195, 63, 213, 166, 198, 214, 222, 155, 130, 8, 36, 179]

/-- The AES key stream under that key and the nonce `[0; 12]`. -/
def keyStream : List UInt8 :=
  [55, 187, 223, 218, 0, 159, 173, 102, 68, 170, 90, 253, 67, 1, 4, 107,
    130, 193, 112, 151, 49, 87, 182, 155, 111, 25, 51, 176, 69, 192, 175, 210]

/-- The tag of the seed `[0; 32]`. -/
def tag : List UInt8 := [247, 203, 7, 25, 206, 9, 225, 154, 183, 6, 57, 4, 167, 13, 69, 79]

/-- The public key of that seed. -/
def publicKey : Bytes32 :=
  #v[59, 106, 39, 188, 206, 182, 164, 45, 98, 163, 168, 208, 42, 111, 13, 115,
    101, 50, 21, 119, 29, 226, 67, 166, 58, 192, 72, 161, 139, 89, 218, 41]

def applyStream (bytes : List UInt8) : List UInt8 :=
  bytes.mapIdx fun i b => b ^^^ keyStream.getD i 0

/-- The crates on that password, salt, nonce and seed. -/
def crypto : Crypto Unit (List UInt8) Bytes32 where
  params _ _ _ _ := .ok ()
  hashPassword _ _ _ := .ok derivedKey
  newCipher key := if key.length = 32 then .ok key else .error "Invalid Length"
  encrypt _ _ plaintext := .ok (applyStream plaintext ++ tag)
  decrypt _ _ ciphertext :=
    let (body, mac) := ciphertext.splitAt (ciphertext.length - tag.length)
    if mac = tag then .ok (applyStream body) else .error "aead::Error"
  toBytes seed := seed ++ publicKey
  pubkey _ := "4zvwRjXUKGfvwnParsHAS3HuSVzV5cA4McphgmoCtajS"
  fromSeed seed := .ok (Vector.ofFn fun i => seed.getD i 0)

theorem applyStream_applyStream (bytes : List UInt8) : applyStream (applyStream bytes) = bytes := by
  refine List.ext_getElem (by simp [applyStream]) fun i _ _ => ?_
  simp only [applyStream, List.getElem_mapIdx]
  rw [UInt8.xor_assoc, UInt8.xor_self, UInt8.xor_zero]

theorem crypto_sound : crypto.Sound where
  params_ok := ⟨(), rfl⟩
  hash_ok _ _ _ _ _ _ := ⟨derivedKey, rfl⟩
  cipher_ok key hkey := ⟨key, if_pos hkey⟩
  opens cipher nonce plaintext _ _ := by
    refine ⟨applyStream plaintext ++ tag, rfl, ?_⟩
    have hlen : (applyStream plaintext ++ tag).length - tag.length = (applyStream plaintext).length := by
      simp
    simp only [crypto, hlen, List.splitAt_eq, List.take_left, List.drop_left, if_true,
      applyStream_applyStream]
  seeded seed := by
    refine congrArg Except.ok (Vector.ext fun i hi => ?_)
    have hbytes : ((seed ++ publicKey).toList.take 32)[i]? = some seed[i] := by
      have happend : seed[i] = (seed ++ publicKey)[i] := Vector.getElem_append_left' hi publicKey
      simpa [hi] using happend.symm
    simp only [Vector.getElem_ofFn, crypto, List.getD_eq_getElem?_getD, hbytes, Option.getD_some]

end Demo

theorem keystore_gives_back_demo :
    Spaced (encode [0]).toList "A A=\n=".toList ∧ decode "A A=\n=" = .ok [0] ∧
      ∃ store, encryptKeypair Demo.crypto (Vector.replicate 32 0) "password" (Vector.replicate 16 0)
        (Vector.replicate 12 0) 0 = .ok store ∧
        decryptKeystore Demo.crypto store "password" = .ok (Vector.replicate 32 0) := by
  have hspaced : Spaced (encode [0]).toList "A A=\n=".toList :=
    .letter 'A' (.space ' ' rfl (.letter 'A' (.letter '=' (.space '\n' rfl (.letter '=' .nil)))))
  obtain ⟨hdecode, -, hstored, -⟩ := keystore_gives_back Demo.crypto Demo.crypto_sound
  exact ⟨hspaced, hdecode _ _ hspaced, hstored _ _ _ _ _ (by decide) (by decide)⟩

end Equium.Miner
