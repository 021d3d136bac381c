import Equium.Miner.Keystore
import Equium.Schemes.Radix
import Equium.Schemes.Run
import Equium.Schemes.Text

/-! @src clients/desktop-miner/src-tauri/src/keystore.rs, state.rs | name:Desktop wallet |
    scheme:run-invariant

    The wallet commands over the file and the key in memory. The commands are not async, so they follow
    one another. A write to the file may fail before it begins, which leaves the old text, or half-way,
    which leaves a text that is no record; a removal may fail, and the command does not look. A restart
    keeps the file and nothing else. Reads of a file that is there are taken to succeed: where one fails
    the command answers as if there were no wallet, and loses nothing. -/

namespace Equium.Miner
open Schemes Equium.Core Base64

/-- The third-party functions of the commands, besides those of the keystore. -/
structure WalletCrates (Params Cipher Keypair : Type) extends Crypto Params Cipher Keypair where
  /-- `Keypair::from_bytes(bytes)`. -/
  fromBytes : List UInt8 → Except String Keypair
  /-- `bs58::encode(bytes).into_string()`. -/
  encodeBase58 : List UInt8 → String
  /-- `bs58::decode(s).into_vec()`. -/
  decodeBase58 : List Char → Except String (List UInt8)
  /-- `serde_json::from_str::<Vec<u8>>(s)`. -/
  bytesOfJson : List Char → Except String (List UInt8)

/-- `wallet.json`: the JSON text of a record stands for the record. -/
inductive WalletFile where
  | absent
  | stored (store : EncryptedKeystore)
  /-- a text that does not parse -/
  | broken
deriving DecidableEq, Repr

/-- The file and `AppState::unlocked`. -/
structure WalletApp (Keypair : Type) where
  file : WalletFile
  unlocked : Option Keypair

inductive WalletScreen where
  | needsSetup
  | needsUnlock
  | unlocked
deriving DecidableEq, Repr

/-- `WalletStatus`. -/
structure WalletStatus where
  status : WalletScreen
  pubkey : Option String
deriving DecidableEq, Repr

/-- What becomes of `std::fs::write`. -/
inductive Written where
  | done
  /-- the file is not opened -/
  | unopened (error : String)
  /-- the file is emptied, and the text cut off -/
  | cut (error : String)
deriving DecidableEq, Repr

/-- `e.to_string()` of an `anyhow` error: its outermost message. -/
def errorText (chain : List String) : String := chain.headD ""

/-- `str::trim`. -/
def trim (s : List Char) : List Char :=
  ((s.dropWhile isWhitespace).reverse.dropWhile isWhitespace).reverse

def loadStore : WalletFile → Option EncryptedKeystore
  | .stored store => some store
  | _ => none

/-- `save_store`, with what becomes of the write. -/
def saveStore (file : WalletFile) (store : EncryptedKeystore) :
    Written → WalletFile × Except (List String) Unit
  | .done => (.stored store, .ok ())
  | .unopened error => (file, .error [error])
  | .cut error => (.broken, .error [error])

section
variable {Params Cipher Keypair : Type} (c : WalletCrates Params Cipher Keypair)

def keypairFromUserInput (s : String) : Except (List String) Keypair :=
  let s := trim s.toList
  if s.head? = some '[' then do
    let arr ← context "invalid JSON keypair" ((c.bytesOfJson s).mapError fun e => [e])
    require (arr.length = 64) ["expected 64-byte secret-key array"]
    mapErr "keypair from bytes" (c.fromBytes arr)
  else do
    let decoded ← mapErr "invalid base58" (c.decodeBase58 s)
    match decoded.length with
    | 64 => mapErr "keypair from bytes" (c.fromBytes decoded)
    | 32 => mapErr "keypair from seed" (c.fromSeed decoded)
    | n => .error ["expected 32 or 64 bytes, got " ++ toString n]

def walletStatus (s : WalletApp Keypair) : WalletStatus :=
  match s.unlocked with
  | some kp => ⟨.unlocked, some (c.pubkey kp)⟩
  | none =>
    match loadStore s.file with
    | some store => ⟨.needsUnlock, some store.pubkey⟩
    | none => ⟨.needsSetup, none⟩

/-- What is drawn and read while a keypair is stored. -/
structure Draws where
  salt : Vector UInt8 16
  nonce : Vector UInt8 12
  chronoUnixMs : Int64
  written : Written

/-- The common part of `create_wallet` and `import_wallet`: encrypt, save, keep in memory. -/
def installWallet (s : WalletApp Keypair) (kp : Keypair) (password : String) (d : Draws) :
    WalletApp Keypair × Except String WalletStatus :=
  match encryptKeypair c.toCrypto kp password d.salt d.nonce d.chronoUnixMs with
  | .error e => (s, .error (errorText e))
  | .ok store =>
    match saveStore s.file store d.written with
    | (file, .error e) => ({ s with file := file }, .error (errorText e))
    | (file, .ok ()) => (⟨file, some kp⟩, .ok ⟨.unlocked, some (c.pubkey kp)⟩)

/-- `create_wallet`, with the keypair `Keypair::new` drew. -/
def createWallet (s : WalletApp Keypair) (kp : Keypair) (password : String) (d : Draws) :
    WalletApp Keypair × Except String WalletStatus := installWallet c s kp password d

def importWallet (s : WalletApp Keypair) (secret password : String) (d : Draws) :
    WalletApp Keypair × Except String WalletStatus :=
  match keypairFromUserInput c secret with
  | .error e => (s, .error (errorText e))
  | .ok kp => installWallet c s kp password d

def unlockWallet (s : WalletApp Keypair) (password : String) :
    WalletApp Keypair × Except String WalletStatus :=
  match loadStore s.file with
  | none => (s, .error "no wallet on disk")
  | some store =>
    match decryptKeystore c.toCrypto store password with
    | .error e => (s, .error (errorText e))
    | .ok kp => ({ s with unlocked := some kp }, .ok ⟨.unlocked, some (c.pubkey kp)⟩)

def lockWallet (s : WalletApp Keypair) : WalletApp Keypair × WalletStatus :=
  ({ s with unlocked := none },
    match loadStore s.file with
    | some store => ⟨.needsUnlock, some store.pubkey⟩
    | none => ⟨.needsSetup, none⟩)

/-- `forget_wallet`; whether the file could be removed is not looked at. -/
def forgetWallet (s : WalletApp Keypair) (removed : Bool) : WalletApp Keypair × WalletStatus :=
  (⟨if removed then .absent else s.file, none⟩, ⟨.needsSetup, none⟩)

def exportSecret (s : WalletApp Keypair) : Except String String :=
  match s.unlocked with
  | some kp => .ok (c.encodeBase58 (c.toBytes kp).toList)
  | none => .error "wallet is locked"

/-! ### Runs -/

inductive WalletLabel (Keypair : Type) where
  | create (kp : Keypair) (password : String) (d : Draws)
  | importSecret (secret password : String) (d : Draws)
  | unlock (password : String)
  | lock
  | forget (removed : Bool)
  /-- the program ends and is started again -/
  | restart

def walletNext (s : WalletApp Keypair) : WalletLabel Keypair → WalletApp Keypair
  | .create kp password d => (createWallet c s kp password d).1
  | .importSecret secret password d => (importWallet c s secret password d).1
  | .unlock password => (unlockWallet c s password).1
  | .lock => (lockWallet s).1
  | .forget removed => (forgetWallet s removed).1
  | .restart => { s with unlocked := none }

/-- One command, or a restart. -/
def WalletStep (s : WalletApp Keypair) (l : WalletLabel Keypair) (s' : WalletApp Keypair) : Prop :=
  walletNext c s l = s'

/-! ### What the wallet is for -/

/-- The key in safe keeping and its password, after a keypair was to be stored. -/
def keptAfterInstall (kept : Option (Keypair × String)) (kp : Keypair) (password : String) (d : Draws) :
    Option (Keypair × String) :=
  match encryptKeypair c.toCrypto kp password d.salt d.nonce d.chronoUnixMs, d.written with
  | .ok _, .done => some (kp, password)
  | .ok _, .cut _ => none
  | _, _ => kept

/-- The key in safe keeping after one more command: the last one stored, unless the file was removed or
    a later write to it was cut off. -/
def keptAfter (kept : Option (Keypair × String)) : WalletLabel Keypair → Option (Keypair × String)
  | .create kp password d => keptAfterInstall c kept kp password d
  | .importSecret secret password d =>
    match keypairFromUserInput c secret with
    | .ok kp => keptAfterInstall c kept kp password d
    | .error _ => kept
  | .forget true => none
  | _ => kept

/-- The key in safe keeping after a run. -/
def kept (tr : List (Taken (WalletApp Keypair) (WalletLabel Keypair))) : Option (Keypair × String) :=
  tr.foldl (fun k t => keptAfter c k t.label) none

/-- The crates as documented: the keystore's, keypairs as bytes, and base58, whose texts have letters
    and digits only. -/
structure WalletCrates.Sound : Prop where
  crypto : c.toCrypto.Sound
  bytes : ∀ kp, c.fromBytes (c.toBytes kp).toList = .ok kp
  base58 : ∀ bytes, c.decodeBase58 (c.encodeBase58 bytes).toList = .ok bytes
  letters : ∀ bytes, ∀ ch ∈ (c.encodeBase58 bytes).toList, ch.isAlphanum = true

variable {c} {s : WalletApp Keypair} {k : Option (Keypair × String)}

/-! ### Export and import -/

theorem alphanum_plain {ch : Char} (h : ch.isAlphanum = true) : isWhitespace ch = false ∧ ch ≠ '[' := by
  obtain ⟨hlow, hhigh, hbracket⟩ := alphanum_bounds h
  refine ⟨?_, hbracket⟩
  simp only [isWhitespace]
  simp
  omega

/-- What is exported can be imported. -/
theorem WalletCrates.Sound.imports (hc : c.Sound) (kp : Keypair) :
    keypairFromUserInput c (c.encodeBase58 (c.toBytes kp).toList) = .ok kp := by
  have hplain := fun ch hch => alphanum_plain (hc.letters (c.toBytes kp).toList ch hch)
  have hhead : (c.encodeBase58 (c.toBytes kp).toList).toList.head? ≠ some '[' := fun h =>
    (hplain '[' (List.mem_of_mem_head? h)).2 rfl
  unfold keypairFromUserInput
  rw [trim, trimmed_eq_self fun ch hch => (hplain ch hch).1]
  dsimp only
  rw [if_neg hhead, bind_of_ok (mapErr_ok.mpr (hc.base58 _)), Vector.length_toList]
  exact mapErr_ok.mpr (hc.bytes kp)

/-! ### The invariant -/

/-- INVARIANT: the key in safe keeping is on file under its password, and no other key is in memory. -/
structure Keeps (c : WalletCrates Params Cipher Keypair) (k : Option (Keypair × String))
    (s : WalletApp Keypair) : Prop where
  file : ∀ kp password, k = some (kp, password) → ∃ store, s.file = .stored store ∧
    store.pubkey = c.pubkey kp ∧ decryptKeystore c.toCrypto store password = .ok kp
  memory : ∀ kp password, k = some (kp, password) → ∀ kp', s.unlocked = some kp' →
    c.pubkey kp' = c.pubkey kp

theorem Keeps.nothing (s : WalletApp Keypair) : Keeps c none s where
  file _ _ h := by cases h
  memory _ _ h := by cases h

/-- Storing a keypair that is new, or failing to. -/
theorem Keeps.install (h : Keeps c k s) (hc : c.Sound) (kp : Keypair) (password : String) (d : Draws) :
    Keeps c (keptAfterInstall c k kp password d) (installWallet c s kp password d).1 := by
  unfold keptAfterInstall installWallet
  cases he : encryptKeypair c.toCrypto kp password d.salt d.nonce d.chronoUnixMs with
  | error e => exact h
  | ok store =>
    cases hw : d.written with
    | unopened error => exact h
    | cut error => exact .nothing _
    | done =>
      obtain ⟨hlen, key, hkey, -⟩ := encryptKeypair_ok.mp he
      obtain ⟨store', hstore', hopen⟩ := hc.crypto.store_opens hkey hlen kp d.nonce d.chronoUnixMs
      obtain rfl := Except.ok.inj (he.symm.trans hstore')
      obtain ⟨-, -, -, -, -, -, -, -, -, -, -, -, -, -, -, hpub⟩ := decryptKeystore_ok.mp hopen
      constructor
      · rintro _ _ ⟨⟩
        exact ⟨store, rfl, hpub.symm, hopen⟩
      · rintro _ _ ⟨⟩ _ ⟨⟩
        rfl

/-- The file as it is, and no key in memory. -/
theorem Keeps.closed (h : Keeps c k s) : Keeps c k ⟨s.file, none⟩ :=
  ⟨h.file, fun _ _ _ _ h' => by cases h'⟩

/-- Step lemma. -/
theorem Keeps.next (h : Keeps c k s) (hc : c.Sound) (l : WalletLabel Keypair) :
    Keeps c (keptAfter c k l) (walletNext c s l) := by
  cases l with
  | create kp password d => exact h.install hc kp password d
  | importSecret secret password d =>
    rw [keptAfter, walletNext, importWallet]
    cases keypairFromUserInput c secret with
    | error e => exact h
    | ok kp => exact h.install hc kp password d
  | unlock password =>
    rw [show keptAfter c k (.unlock password) = k from rfl, walletNext, unlockWallet]
    cases hl : loadStore s.file with
    | none => exact h
    | some store =>
      dsimp only
      cases hd : decryptKeystore c.toCrypto store password with
      | error e => exact h
      | ok kp' =>
        refine ⟨h.file, ?_⟩
        rintro kp pw hk _ ⟨⟩
        obtain ⟨store', hfile, hpub, -⟩ := h.file kp pw hk
        rw [hfile] at hl
        obtain rfl := Option.some.inj hl
        obtain ⟨-, -, -, -, -, -, -, -, -, -, -, -, -, -, -, hpub'⟩ := decryptKeystore_ok.mp hd
        exact hpub'.trans hpub
  | lock => exact h.closed
  | restart => exact h.closed
  | forget removed =>
    cases removed with
    | true => exact .nothing _
    | false => exact h.closed

/-- Run lemma. -/
theorem keeps_run (hc : c.Sound) {s₀ : WalletApp Keypair}
    {tr : List (Taken (WalletApp Keypair) (WalletLabel Keypair))} (h : Run (WalletStep c) s₀ tr s) :
    Keeps c (kept c tr) s := by
  refine h.inv (fun tr s => Keeps c (kept c tr) s) (.nothing _) ?_
  intro tr s l s' _ ih hst
  obtain rfl : walletNext c s l = s' := hst
  rw [kept, List.foldl_append]
  exact ih.next hc l

variable (c)

/-- NO KEY IS LOST: in every run of the commands, with restarts and whatever writes and removals fail,
    the key that was stored last opens under its password and is the one the status shows, as long as no
    later write is cut off and the file is not removed; no other password opens another key. And an
    exported secret, imported into any installation, brings the same key, which opens there too. -/
theorem wallet_keeps_key (hc : c.Sound) (s₀ s : WalletApp Keypair)
    (tr : List (Taken (WalletApp Keypair) (WalletLabel Keypair))) (h : Run (WalletStep c) s₀ tr s) :
    (∀ kp password, kept c tr = some (kp, password) →
      unlockWallet c s password = (⟨s.file, some kp⟩, .ok ⟨.unlocked, some (c.pubkey kp)⟩) ∧
      walletStatus c s =
        ⟨if s.unlocked.isSome then .unlocked else .needsUnlock, some (c.pubkey kp)⟩ ∧
      ∀ password' s' status, unlockWallet c s password' = (s', .ok status) →
        status = ⟨.unlocked, some (c.pubkey kp)⟩) ∧
    ∀ text, exportSecret c s = .ok text → ∃ kp, s.unlocked = some kp ∧
      ∀ s' password d, 8 ≤ password.utf8ByteSize → password.utf8ByteSize < 2 ^ 32 → d.written = .done →
        (importWallet c s' text password d).1.unlocked = some kp ∧
        (unlockWallet c ⟨(importWallet c s' text password d).1.file, none⟩ password).1.unlocked =
          some kp := by
  have hkeeps := keeps_run hc h
  refine ⟨fun kp password hk => ?_, fun text htext => ?_⟩
  · obtain ⟨store, hfile, hpub, hopen⟩ := hkeeps.file kp password hk
    have hload : loadStore s.file = some store := by rw [hfile]; rfl
    refine ⟨?_, ?_, fun password' s' status hun => ?_⟩
    · rw [unlockWallet, hload]
      dsimp only
      rw [hopen]
    · rw [walletStatus, hload]
      cases hu : s.unlocked with
      | none => exact congrArg (fun p => WalletStatus.mk .needsUnlock (some p)) hpub
      | some kp' => exact congrArg (fun p => WalletStatus.mk .unlocked (some p)) (hkeeps.memory _ _ hk _ hu)
    · rw [unlockWallet, hload] at hun
      dsimp only at hun
      cases hd : decryptKeystore c.toCrypto store password' with
      | error e =>
        rw [hd] at hun
        cases hun
      | ok kp' =>
        rw [hd] at hun
        obtain ⟨-, -, -, -, -, -, -, -, -, -, -, -, -, -, -, hpub'⟩ := decryptKeystore_ok.mp hd
        obtain rfl := Except.ok.inj (Prod.mk.inj hun).2
        rw [hpub', hpub]
  · unfold exportSecret at htext
    cases hu : s.unlocked with
    | none =>
      rw [hu] at htext
      cases htext
    | some kp =>
      rw [hu] at htext
      obtain rfl := Except.ok.inj htext
      refine ⟨kp, rfl, fun s' password d hlen hmax hw => ?_⟩
      obtain ⟨key, hkey⟩ := hc.crypto.key_of_password d.salt hmax
      obtain ⟨store, hstore, hopen⟩ := hc.crypto.store_opens hkey hlen kp d.nonce d.chronoUnixMs
      have himport : importWallet c s' (c.encodeBase58 (c.toBytes kp).toList) password d =
          (⟨.stored store, some kp⟩, .ok ⟨.unlocked, some (c.pubkey kp)⟩) := by
        rw [importWallet, hc.imports kp]
        dsimp only
        rw [installWallet, hstore, hw]
        rfl
      rw [himport, unlockWallet]
      refine ⟨rfl, ?_⟩
      dsimp only [loadStore]
      rw [hopen]

end

namespace Demo

/-- The crates on the demonstration keypair. -/
def walletCrates : WalletCrates Unit (List UInt8) Bytes32 where
  toCrypto := crypto
  fromBytes bytes := .ok (Vector.ofFn fun i => bytes.getD i 0)
  encodeBase58 bytes := String.ofList (Base58.encode bytes)
  decodeBase58 cs :=
    match Base58.decode cs with
    | some bytes => .ok bytes
    | none => .error "provided string contained invalid character"
  bytesOfJson _ := .error "expected value"

theorem walletCrates_sound : walletCrates.Sound where
  crypto := crypto_sound
  bytes seed := by
    have hread : ∀ i (hi : i < 32), (seed ++ publicKey).toList.getD i 0 = seed[i] := by
      intro i hi
      rw [Vector.toList_append, List.getD_append _ _ _ _ (by rwa [Vector.length_toList])]
      simp [List.getD_eq_getElem?_getD, hi]
    refine congrArg Except.ok (Vector.ext fun i hi => ?_)
    rw [Vector.getElem_ofFn]
    exact hread i hi
  base58 bytes := by
    dsimp only [walletCrates]
    rw [String.toList_ofList, Base58.decode_encode]
  letters bytes ch hch := by
    dsimp only [walletCrates] at hch
    rw [String.toList_ofList] at hch
    have hall : Base58.alphabet.all Char.isAlphanum = true := by decide +kernel
    exact List.all_eq_true.mp hall ch (Base58.encode_mem bytes ch hch)

/-- What is drawn for the demonstration wallet. -/
def draws : Draws := ⟨Vector.replicate 16 0, Vector.replicate 12 0, 0, .done⟩

/-- A wallet is created, its removal fails, and the program is started again. -/
theorem forgotten_run : ∃ tr s, Run (WalletStep walletCrates) ⟨.absent, none⟩ tr s ∧
    s.unlocked = none ∧ kept walletCrates tr = some (Vector.replicate 32 0, "password") := by
  obtain ⟨key, hkey⟩ : ∃ key, deriveAesKey crypto "password" draws.salt.toList = .ok key :=
    crypto_sound.key_of_password draws.salt (by decide)
  obtain ⟨store, hstore, -⟩ := crypto_sound.store_opens hkey (by decide)
    (Vector.replicate 32 0) draws.nonce draws.chronoUnixMs
  refine ⟨_, _, ((Run.nil.snoc (l := .create (Vector.replicate 32 0) "password" draws) rfl).snoc
    (l := .forget false) rfl).snoc (l := .restart) rfl, rfl, ?_⟩
  change keptAfterInstall walletCrates none (Vector.replicate 32 0) "password" draws = _
  unfold keptAfterInstall
  rw [show encryptKeypair walletCrates.toCrypto _ _ _ _ _ = .ok store from hstore]
  rfl

end Demo

/-- The demonstration key is still there, under its password. -/
theorem wallet_keeps_key_demo : ∃ tr s, Run (WalletStep Demo.walletCrates) ⟨.absent, none⟩ tr s ∧
    s.unlocked = none ∧
    (unlockWallet Demo.walletCrates s "password").1.unlocked = some (Vector.replicate 32 0) := by
  obtain ⟨tr, s, hrun, hlocked, hkept⟩ := Demo.forgotten_run
  obtain ⟨hopen, -⟩ := (wallet_keeps_key _ Demo.walletCrates_sound _ _ _ hrun).1 _ _ hkept
  exact ⟨tr, s, hrun, hlocked, by rw [hopen]⟩

end Equium.Miner
