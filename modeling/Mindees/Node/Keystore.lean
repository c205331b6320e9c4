import Mindees.Library.Base64
import Mindees.Node.BlockSize
import Mindees.Node.Secrets

/-!
# The keystore

A secret on disk is encrypted under a passphrase.  What `keygen` writes to a path, every
later command unlocks with the same passphrase, whatever else is generated meanwhile.
-/

namespace Mindees

open Library

namespace Key

def version : Str := ['v', 'e', 'r', 's', 'i', 'o', 'n']
def kdf : Str := ['k', 'd', 'f']
def n : Str := ['n']
def r : Str := ['r']
def p : Str := ['p']
def salt : Str := ['s', 'a', 'l', 't']
def ciphertext : Str := ['c', 'i', 'p', 'h', 'e', 'r', 't', 'e', 'x', 't']

end Key

/-- `"scrypt"`. -/
def SCRYPT : Str := ['s', 'c', 'r', 'y', 'p', 't']

/-- The derivation of keys and the authenticated cipher. -/
class Cryptography where
  /-- `Scrypt(salt, 32, n, r, p).derive(passphrase)`. -/
  scrypt : (salt : Bytes) → (n r p : Json) → (passphrase : Bytes) → Except Error Bytes
  /-- `AESGCM(key).encrypt(nonce, data, None)`. -/
  encrypt : (key nonce data : Bytes) → Bytes
  /-- `AESGCM(key).decrypt(nonce, data, None)`; `none` stands for `InvalidTag`. -/
  decrypt : (key nonce data : Bytes) → Except Error (Option Bytes)

/-- What the library promises: keys of the length asked for, and a cipher that undoes
itself. -/
class Cryptography.Lossless [Cryptography] : Prop where
  derived : ∀ salt n r p passphrase key, scrypt salt n r p passphrase = .ok key → key.length = 32
  decrypted : ∀ key nonce data, key.length = 32 → nonce.length = 12 →
    decrypt key nonce (encrypt key nonce data) = .ok (some data)

/-- The work factors. -/
def SCRYPT_N : Int := 2 ^ 14
def SCRYPT_R : Int := 8
def SCRYPT_P : Int := 1

/-- `_b64`. -/
def b64 (raw : Bytes) : Json := .str (Base64.encode raw)

/-- `_unb64`, of a value of any kind. -/
def unb64 : Json → Except Error Bytes
  | .str text => require (Base64.decode text) .valueError
  | _ => .error .attributeError

/-- `keystore[key]`. -/
def keystoreField (fields : List (Str × Json)) (key : Str) : Except Error Json :=
  require (Json.field fields key) .keyError

/-- The fields of a keystore. -/
def keystoreFields (salt nonce ciphertext : Bytes) : List (Str × Json) :=
  [(Key.version, .int 1), (Key.kdf, .str SCRYPT), (Key.n, .int SCRYPT_N), (Key.r, .int SCRYPT_R),
    (Key.p, .int SCRYPT_P), (Key.salt, b64 salt), (Key.nonce, b64 nonce),
    (Key.ciphertext, b64 ciphertext)]

section

variable [Cryptography]

/-- Encrypt a secret under a passphrase, with fresh salt and nonce. -/
def encryptSecret (secretHex passphrase : Str) (salt nonce : Bytes) : Except Error Json := do
  let secret ← require (fromHex secretHex) .valueError
  raiseIf (passphrase = []) .valueError
  let key ← Cryptography.scrypt salt (.int SCRYPT_N) (.int SCRYPT_R) (.int SCRYPT_P)
    (encodeUtf8 passphrase)
  pure (.obj (keystoreFields salt nonce (Cryptography.encrypt key nonce secret)))

/-- The secret in a keystore. -/
def decryptSecret (keystore : Json) (passphrase : Str) : Except Error Str :=
  match keystore with
  | .obj fields => do
      let supported := match Json.field fields Key.kdf with
        | some (.str kdf) => decide (kdf = SCRYPT)
        | _ => false
      raiseIf (supported = false) .valueError
      let salt ← keystoreField fields Key.salt
      let salt ← unb64 salt
      let n ← keystoreField fields Key.n
      let r ← keystoreField fields Key.r
      let p ← keystoreField fields Key.p
      let key ← Cryptography.scrypt salt n r p (encodeUtf8 passphrase)
      let nonce ← keystoreField fields Key.nonce
      let nonce ← unb64 nonce
      let ciphertext ← keystoreField fields Key.ciphertext
      let ciphertext ← unb64 ciphertext
      let opened ← Cryptography.decrypt key nonce ciphertext
      let secret ← require opened .valueError
      pure (hex secret)
  | _ => .error .attributeError

end

/-! ## Files and commands -/

/-- What ends a command. -/
inductive Exit
  | systemExit (message : String)
  | fileNotFound
  | raised (error : Error)

/-- A call of a function that raises. -/
def Exit.call {α : Type} (computation : Except Error α) : Except Exit α :=
  computation.mapError .raised

@[simp] theorem Exit.call_eq_ok
    {α : Type}
    (computation : Except Error α)
    (value : α) :
    Exit.call computation = .ok value ↔ computation = .ok value := by
  cases computation <;> simp [Exit.call, Except.mapError]

/-- Paths to the texts of files. -/
abbrev Files := Dict Str Str

/-- `path + ".tmp"`. -/
def temporary (path : Str) : Str := path ++ ['.', 't', 'm', 'p']

section

variable [Primitives]

/-- Write a keystore next to its path and put it in place. -/
def saveKeystore (files : Files) (keystore : Json) (path : Str) : Except Exit Files := do
  raiseIf (path = []) .fileNotFound
  pure (((files.set (temporary path) (jsonDumps keystore)).erase (temporary path)).set path
    (jsonDumps keystore))

/-- The keystore at a path. -/
def loadKeystore (files : Files) (path : Str) : Except Exit Json := do
  let text ← require (files.get? path) .fileNotFound
  Exit.call (require (Primitives.jsonLoads (translateNewlines text)) .valueError)

variable [Cryptography]

/-- The secret of a command, given inline or in a keystore.  `passphrase` is the
environment variable. -/
def resolveSecret
    (files : Files)
    (passphrase keystore secret : Option Str) : Except Exit Str :=
  match keystore with
  | some (char :: path) => do
      let passphrase := passphrase.getD []
      raiseIf (passphrase = []) (.systemExit "set $MINDEES_PASSPHRASE to use a keystore")
      let loaded ← loadKeystore files (char :: path)
      Exit.call (decryptSecret loaded passphrase)
  | _ => do
      let secret := secret.getD []
      raiseIf (secret = []) (.systemExit "provide a secret or --keystore PATH")
      pure secret

variable [Keys] [Digits]

/-- The wallet of a secret in text. -/
def walletOf (secret : Str) : Except Exit Wallet :=
  Exit.call do
    let number ← intOfHex secret
    Wallet.fromSecret number

/-- The wallet that a command spends from. -/
def spendingWallet
    (files : Files)
    (passphrase keystore secret : Option Str) : Except Exit Wallet := do
  let secret ← resolveSecret files passphrase keystore secret
  walletOf secret

/-- One run of `keygen`: the environment, the path and the random draws. -/
structure Keygen where
  passphrase : Option Str
  out : Str
  draws : List Nat
  salt : Bytes
  nonce : Bytes

namespace Keygen

/-- Write a fresh secret, and print its address. -/
def run (keygen : Keygen) (files : Files) : Except Exit (Files × Str) := do
  let passphrase := keygen.passphrase.getD []
  raiseIf (passphrase = []) (.systemExit "set $MINDEES_PASSPHRASE to encrypt the keystore")
  let (secret, _) ← require (newSecret keygen.draws) (.raised .diverges)
  let keystore ← Exit.call (encryptSecret secret passphrase keygen.salt keygen.nonce)
  let files ← saveKeystore files keystore keygen.out
  let wallet ← walletOf secret
  pure (files, wallet.address)

/-- The files after a run. -/
def after (keygen : Keygen) (files : Files) : Files :=
  match keygen.run files with
  | .ok (files, _) => files
  | .error _ => files

/-- What `secrets.randbits` and `os.urandom` give. -/
structure Drawn (keygen : Keygen) : Prop where
  draws : ∀ draw ∈ keygen.draws, draw < 2 ^ 256
  nonce : keygen.nonce.length = 12

/-- A run leaves a path alone.  Two paths that are spelled differently count as different
files. -/
def Spares (path : Str) (keygen : Keygen) : Prop :=
  keygen.out ≠ path ∧ temporary keygen.out ≠ path

end Keygen

end

/-! ## Locking and unlocking -/

theorem keystoreKeys_nodup :
    [Key.version, Key.kdf, Key.n, Key.r, Key.p, Key.salt, Key.nonce, Key.ciphertext].Nodup := by
  decide

theorem readable_keystoreFields (salt nonce ciphertext : Bytes) :
    (Json.obj (keystoreFields salt nonce ciphertext)).Readable := by
  refine .obj keystoreKeys_nodup ?_
  simp only [keystoreFields, List.forall_mem_cons]
  exact ⟨.int _, .str _, .int _, .int _, .int _, .str _, .str _, .str _, by simp⟩

theorem unb64_b64 (raw : Bytes) : unb64 (b64 raw) = .ok raw := by
  rw [b64, unb64, Base64.decode_encode]
  rfl

section

variable [Cryptography]

/-- A keystore opens with its passphrase, and gives the secret in lower case and
without gaps. -/
theorem decryptSecret_encryptSecret
    [Cryptography.Lossless]
    {secretHex passphrase : Str}
    {secret salt nonce : Bytes}
    {keystore : Json}
    (spelled : fromHex secretHex = some secret)
    (drawn : nonce.length = 12)
    (encrypted : encryptSecret secretHex passphrase salt nonce = .ok keystore) :
    decryptSecret keystore passphrase = .ok (hex secret) ∧
      ∃ ciphertext, keystore = .obj (keystoreFields salt nonce ciphertext) := by
  simp only [encryptSecret, bind_eq_ok, require_eq_ok, raiseIf_eq_ok, exists_unit,
    pure_eq_ok] at encrypted
  obtain ⟨plain, same, _, key, derived, rfl⟩ := encrypted
  obtain rfl : secret = plain := Option.some.inj (spelled.symm.trans same)
  have long := Cryptography.Lossless.derived _ _ _ _ _ _ derived
  have opened := Cryptography.Lossless.decrypted key nonce secret long drawn
  refine ⟨?_, _, rfl⟩
  simp only [decryptSecret, keystoreFields, keystoreField, bind_eq_ok, require_eq_ok,
    exists_unit, pure_eq_ok]
  refine ⟨rfl, b64 salt, rfl, salt, unb64_b64 salt, _, rfl, _, rfl, _, rfl, key, derived,
    b64 nonce, rfl, nonce, unb64_b64 nonce, _, rfl, _, unb64_b64 _, _, opened, secret, rfl, rfl⟩

end

section

variable [Primitives]

/-- A written keystore is read back. -/
theorem loadKeystore_of_stored
    (reads : ∀ value : Json, value.Readable → Primitives.jsonLoads (jsonDumps value) = some value)
    {files : Files}
    {path : Str}
    {keystore : Json}
    (readable : keystore.Readable)
    (stored : files.get? path = some (jsonDumps keystore)) :
    loadKeystore files path = .ok keystore := by
  have printable : (jsonDumps keystore).all Json.isPrintable = true :=
    readable.all_isPrintable rfl
  have oneLine : translateNewlines (jsonDumps keystore) = jsonDumps keystore :=
    translateNewlines_eq_self (not_mem_of_printable printable rfl)
  simp only [loadKeystore, bind_eq_ok, require_eq_ok, Exit.call_eq_ok]
  exact ⟨_, stored, by rw [oneLine, reads keystore readable]⟩

theorem get?_saveKeystore
    {files after : Files}
    {keystore : Json}
    {path : Str}
    (saved : saveKeystore files keystore path = .ok after) :
    path ≠ [] ∧ after.get? path = some (jsonDumps keystore) ∧
      ∀ other, path ≠ other → temporary path ≠ other → after.get? other = files.get? other := by
  simp only [saveKeystore, bind_eq_ok, raiseIf_eq_ok, exists_unit, pure_eq_ok] at saved
  obtain ⟨named, rfl⟩ := saved
  refine ⟨named, by simp, fun other notPath notTemporary => ?_⟩
  simp [notPath, notTemporary]

variable [Cryptography] [Keys] [Digits]

namespace Keygen

variable {keygen : Keygen} {files finish : Files} {address : Str}

/-- A run leaves a keystore at its path, of a secret whose wallet has the printed
address, and no other path but the temporary one is touched. -/
theorem run_spec
    (drawn : keygen.Drawn)
    (ran : keygen.run files = .ok (finish, address)) :
    ∃ passphrase secret keystore wallet bytes,
      keygen.passphrase = some passphrase ∧ passphrase ≠ [] ∧ keygen.out ≠ [] ∧
      encryptSecret secret passphrase keygen.salt keygen.nonce = .ok keystore ∧
      hex bytes = secret ∧ walletOf secret = .ok wallet ∧ wallet.address = address ∧
      finish.get? keygen.out = some (jsonDumps keystore) ∧
      ∀ path, keygen.Spares path → finish.get? path = files.get? path := by
  simp only [run, bind_eq_ok, require_eq_ok, raiseIf_eq_ok, exists_unit, pure_eq_ok,
    Exit.call_eq_ok, Prod.mk.injEq] at ran
  obtain ⟨given, ⟨secret, rest⟩, fresh, keystore, encrypted, after, saved, wallet, own, rfl,
    rfl⟩ := ran
  obtain ⟨passphrase, same⟩ : ∃ passphrase, keygen.passphrase = some passphrase := by
    cases found : keygen.passphrase with
    | none => exact absurd (by rw [found]; rfl) given
    | some passphrase => exact ⟨passphrase, rfl⟩
  rw [same, Option.getD_some] at given encrypted
  obtain ⟨draw, inside, _, _, spelled⟩ := newSecret_eq_some fresh
  obtain ⟨_, ⟨bytes, written⟩, _⟩ := formatSecret_spec (drawn.draws draw inside)
  obtain ⟨named, stored, others⟩ := get?_saveKeystore saved
  exact ⟨passphrase, secret, keystore, wallet, bytes, same, given, named, encrypted,
    written.trans spelled.symm, own, rfl, stored, fun path spared => others path spared.1 spared.2⟩

/-- Runs that spare a path leave the file there as it is. -/
theorem get?_after
    {path : Str}
    (drawn : keygen.Drawn)
    (spared : keygen.Spares path) :
    (keygen.after files).get? path = files.get? path := by
  rw [after]
  cases ran : keygen.run files with
  | error _ => rfl
  | ok ended =>
      obtain ⟨_, _, _, _, _, _, _, _, _, _, _, _, _, others⟩ := run_spec drawn ran
      exact others path spared

theorem get?_foldl_after
    {path : Str}
    {later : List Keygen}
    (drawn : ∀ other ∈ later, other.Drawn)
    (spared : ∀ other ∈ later, other.Spares path) :
    (later.foldl (fun files other => other.after files) files).get? path = files.get? path := by
  induction later generalizing files with
  | nil => rfl
  | cons other rest inductionHypothesis =>
      rw [List.forall_mem_cons] at drawn spared
      rw [List.foldl_cons, inductionHypothesis drawn.2 spared.2, get?_after drawn.1 spared.1]

/-- What `keygen` wrote, a command unlocks with the same passphrase, whatever is
generated in between for other paths: it spends from the wallet whose address was
printed. -/
theorem unlocks
    [Cryptography.Lossless]
    (reads : ∀ value : Json, value.Readable → Primitives.jsonLoads (jsonDumps value) = some value)
    (drawn : keygen.Drawn)
    (ran : keygen.run files = .ok (finish, address))
    {later : List Keygen}
    (laterDrawn : ∀ other ∈ later, other.Drawn)
    (spared : ∀ other ∈ later, other.Spares keygen.out)
    (inline : Option Str) :
    ∃ wallet,
      spendingWallet (later.foldl (fun files other => other.after files) finish)
        keygen.passphrase (some keygen.out) inline = .ok wallet ∧ wallet.address = address := by
  obtain ⟨passphrase, secret, keystore, wallet, bytes, given, nonempty, named, encrypted, written,
    own, same, stored, _⟩ := run_spec drawn ran
  have spelled : fromHex secret = some bytes := by rw [← written, fromHex_hex]
  obtain ⟨opened, ciphertext, shape⟩ :=
    decryptSecret_encryptSecret spelled drawn.nonce encrypted
  have readable : keystore.Readable := by
    rw [shape]
    exact readable_keystoreFields _ _ _
  have kept := get?_foldl_after laterDrawn spared |>.trans stored
  have loaded := loadKeystore_of_stored reads readable kept
  obtain ⟨char, path, out⟩ := List.exists_cons_of_ne_nil named
  refine ⟨wallet, ?_, same⟩
  rw [out] at loaded
  simp only [spendingWallet, resolveSecret, out, given, Option.getD_some, bind_eq_ok,
    raiseIf_eq_ok, exists_unit, Exit.call_eq_ok]
  exact ⟨secret, ⟨nonempty, keystore, loaded, by rw [opened, written]⟩, own⟩

end Keygen

end

/-! ## Two keystores -/

namespace KeystoreSample

attribute [local instance] Symbolic.reading Symbolic.digits

/-- A short derivation and a cipher that flips bits and keeps a checksum. -/
@[reducible] def cryptography : Cryptography where
  scrypt salt _ _ _ passphrase :=
    .ok (List.replicate 28 0 ++ Symbolic.digest (salt ++ passphrase))
  encrypt key nonce data :=
    Symbolic.digest (key ++ nonce ++ data) ++ data.map (255 ^^^ ·)
  decrypt key nonce data :=
    let plain := (data.drop 4).map (255 ^^^ ·)
    .ok (if data.take 4 = Symbolic.digest (key ++ nonce ++ plain) then some plain else none)

attribute [local instance] cryptography

theorem lossless : Cryptography.Lossless where
  derived salt n r p passphrase key derived := by
    obtain rfl := Except.ok.inj derived
    rfl
  decrypted key nonce data _ _ := by
    have back : ((Cryptography.encrypt key nonce data).drop 4).map (255 ^^^ ·) = data := by
      show (data.map (255 ^^^ ·)).map (255 ^^^ ·) = data
      rw [List.map_map]
      refine (List.map_congr_left fun byte _ => ?_).trans (List.map_id data)
      show 255 ^^^ (255 ^^^ byte) = byte
      rw [← UInt8.xor_assoc, UInt8.xor_self, UInt8.zero_xor]
    have tag : (Cryptography.encrypt key nonce data).take 4 =
        Symbolic.digest (key ++ nonce ++ data) := rfl
    show Except.ok (if _ then _ else _) = _
    rw [back, if_pos tag]

/-- The curve takes every number. -/
@[reducible] def keys : Keys where
  derive secret := some (Symbolic.wallet (UInt8.ofNat secret))

attribute [local instance] keys

/-- A run of `keygen` that draws nothing usable at first. -/
def keygen (name : Char) (draw : Nat) : Keygen where
  passphrase := some ['p', 'w']
  out := [name]
  draws := [0, draw]
  salt := List.replicate 16 5
  nonce := List.replicate 12 6

theorem drawn
    (name : Char)
    {draw : Nat}
    (bounded : draw < 2 ^ 256) :
    (keygen name draw).Drawn where
  draws := by
    simp only [keygen, List.forall_mem_cons]
    exact ⟨by norm_num, bounded, by simp⟩
  nonce := rfl

/-- The reader undoes the writer. -/
theorem loads
    (value : Json)
    (readable : value.Readable) :
    Primitives.jsonLoads (jsonDumps value) = some value :=
  Json.read_render _ (fun _ => List.mem_singleton.mp) readable

theorem generated : succeeded ((keygen 'a' 7).run Dict.empty) = true := by decide +kernel

/-- The first keystore unlocks to its wallet after the second was written. -/
theorem unlocks_first :
    ∃ wallet,
      spendingWallet
        ((keygen 'b' 8).after (outcome ((keygen 'a' 7).run Dict.empty) generated).1)
        (some ['p', 'w']) (some ['a']) none = .ok wallet ∧
      wallet.address = (Symbolic.wallet 7).address := by
  have address : (outcome ((keygen 'a' 7).run Dict.empty) generated).2 =
      (Symbolic.wallet 7).address := by decide +kernel
  have others : ∀ other ∈ [keygen 'b' 8], other.Drawn ∧ other.Spares ['a'] := by
    intro other only
    obtain rfl := List.mem_singleton.mp only
    exact ⟨drawn 'b' (by norm_num), by decide, by decide⟩
  rw [← address]
  exact @Keygen.unlocks _ _ _ _ _ _ _ _ lossless loads (drawn 'a' (by norm_num))
    (eq_ok_outcome _ generated) [keygen 'b' 8] (fun other only => (others other only).1)
    (fun other only => (others other only).2) none

end KeystoreSample

end Mindees
