import Passdoq.Lib.Bytes
import Mathlib

/-!
# Key derivation and authenticated encryption

The functions of `crypto.cpp` over the primitives of libsodium, which are a parameter `S : Sodium`.

* `Exn`, `Fault` : the exceptions that are caught as `std::exception`, and an access outside an object;
* `readFixed`, `copyInto` : a read or a write of a fixed number of bytes at a vector of any length;
* `deriveMasterKey`, `encrypt`, `decrypt`;
* `Sodium.Correct` : what the primitives promise; `Sodium.toy` : a small model of them.
-/

namespace Passdoq

/-- The exceptions of the vault, each derived from `std::exception`. -/
inductive Exn
  | runtimeError (what : String)
  | invalidArgument (what : String)
  | unpackError
  | typeError
  | containerSizeOverflow
  | iosFailure
  deriving DecidableEq

/-- How a computation ends without a value: an exception, or the process stopped by a bad access. -/
inductive Fault
  | exn (e : Exn)
  | trap
  deriving DecidableEq

/-- `catch (const std::exception&)` takes it. -/
def Fault.isException : Fault → Bool
  | .exn _ => true
  | .trap => false

namespace Crypto

def MASTER_KEY_SIZE : Nat := 32
def DATA_KEY_SIZE : Nat := 32
def SALT_SIZE : Nat := 16
def NONCE_SIZE : Nat := 24
def MAC_SIZE : Nat := 16

abbrev Key := Block MASTER_KEY_SIZE
abbrev Salt := Block SALT_SIZE
abbrev Nonce := Block NONCE_SIZE

/-- The primitives of libsodium: `crypto_pwhash` with Argon2id and the limits of `crypto.hpp`,
`crypto_secretbox_easy` and `crypto_secretbox_open_easy`. -/
structure Sodium where
  pwhash : Bytes → Salt → Key
  easy : Key → Nonce → Bytes → Bytes
  openEasy : Key → Nonce → Bytes → Option Bytes

/-- What secretbox is: the message under one keystream behind one tag, so that what opens to `m` is the encryption
of `m`. -/
structure Sodium.Correct (S : Sodium) : Prop where
  open_easy : ∀ k n m, S.openEasy k n (S.easy k n m) = some m
  easy_open : ∀ k n c m, S.openEasy k n c = some m → S.easy k n m = c
  length_easy : ∀ k n m, (S.easy k n m).length = m.length + MAC_SIZE

theorem Sodium.Correct.length_open {S : Sodium} (hS : S.Correct) {k : Key} {n : Nonce} {c m : Bytes}
    (h : S.openEasy k n c = some m) : c.length = m.length + MAC_SIZE := by
  rw [← hS.easy_open k n c m h, hS.length_easy]

/-- A ciphertext made under one derived key is not accepted under another. -/
def Sodium.Rejects (S : Sodium) : Prop :=
  ∀ p s p' s' n m, S.pwhash p s ≠ S.pwhash p' s' → S.openEasy (S.pwhash p' s') n (S.easy (S.pwhash p s) n m) = none

/-- Whether a key opens what another one encrypted depends on the two keys and the nonce, not on the message. -/
def Sodium.Seals (S : Sodium) : Prop :=
  ∀ k k' n, (∀ m, S.openEasy k' n (S.easy k n m) = some m) ∨ ∀ m, S.openEasy k' n (S.easy k n m) = none

/-- What a primitive that reads `n` bytes at the start of `b` gets. Past the end of `b` the process stops
(`beyond = none`) or goes on with the bytes it finds there. -/
def readFixed (beyond : Option Bytes) (n : Nat) (b : Bytes) : Except Fault (Block n) :=
  if n ≤ b.length then .ok (Block.pad n b)
  else match beyond with
    | none => .error .trap
    | some g => .ok (Block.pad n (b ++ g))

/-- `std::copy` of `b` to the start of a zeroed buffer of `n` bytes. Past the end of the buffer the process
stops (`beyond = none`) or goes on with what it wrote outside the buffer lost on other objects. -/
def copyInto (beyond : Option Bytes) (n : Nat) (b : Bytes) : Except Fault (Block n) :=
  if b.length ≤ n then .ok (Block.pad n b)
  else match beyond with
    | none => .error .trap
    | some _ => .ok (Block.pad n b)

theorem readFixed_of_le {n : Nat} {b : Bytes} (h : n ≤ b.length) (beyond : Option Bytes) :
    readFixed beyond n b = .ok (Block.pad n b) := if_pos h

theorem copyInto_of_length {n : Nat} {b : Bytes} (h : b.length = n) (beyond : Option Bytes) :
    copyInto beyond n b = .ok ⟨b, h⟩ := by
  unfold copyInto
  rw [if_pos (Nat.le_of_eq h), Block.pad_of_length h]

structure DerivedKey where
  key : Key
  salt : Bytes

structure EncryptedData where
  ciphertext : Bytes
  nonce : Bytes
  mac : Bytes

variable (S : Sodium)

/-- Derive the master key; an empty salt stands for `fresh`, the random bytes drawn for a new one. `alloc` is
whether Argon2id gets its memory. -/
def deriveMasterKey (fresh : Salt) (alloc : Bool) (beyond : Option Bytes) (passphrase salt : Bytes) :
    Except Fault DerivedKey := do
  let salt := if salt = [] then fresh.1 else salt
  let arg ← readFixed beyond SALT_SIZE salt
  if alloc then .ok ⟨S.pwhash passphrase arg, salt⟩
  else .error (.exn (.runtimeError "Argon2id key derivation failed"))

/-- Encrypt with the drawn `nonce`. -/
def encrypt (nonce : Nonce) (plaintext key : Bytes) : Except Fault EncryptedData :=
  if h : key.length = MASTER_KEY_SIZE then
    let ciphertext := S.easy ⟨key, h⟩ nonce plaintext
    .ok ⟨ciphertext, nonce.1, ciphertext.take MAC_SIZE⟩
  else .error (.exn (.invalidArgument "Invalid key size"))

def decrypt (beyond : Option Bytes) (encrypted : EncryptedData) (key : Bytes) : Except Fault Bytes :=
  if h : key.length = MASTER_KEY_SIZE then
    if encrypted.ciphertext.length < MAC_SIZE then .error (.exn (.invalidArgument "Invalid ciphertext size"))
    else do
      let nonce ← readFixed beyond NONCE_SIZE encrypted.nonce
      match S.openEasy ⟨key, h⟩ nonce encrypted.ciphertext with
      | some plaintext => .ok plaintext
      | none => .error (.exn (.runtimeError "Decryption failed (authentication error)"))
  else .error (.exn (.invalidArgument "Invalid key size"))

variable {S}

theorem deriveMasterKey_of_le {salt : Bytes} (h : SALT_SIZE ≤ salt.length) (fresh : Salt) (beyond : Option Bytes)
    (passphrase : Bytes) :
    deriveMasterKey S fresh true beyond passphrase salt = .ok ⟨S.pwhash passphrase (Block.pad SALT_SIZE salt), salt⟩ := by
  have hne : salt ≠ [] := by rintro rfl; simp [SALT_SIZE] at h
  simp [deriveMasterKey, hne, readFixed_of_le h, bind, Except.bind]

theorem deriveMasterKey_salt {fresh : Salt} {alloc : Bool} {beyond : Option Bytes} {passphrase salt : Bytes}
    {d : DerivedKey} (h : deriveMasterKey S fresh alloc beyond passphrase salt = .ok d) :
    ∃ arg, d.key = S.pwhash passphrase arg := by
  unfold deriveMasterKey at h
  cases hr : readFixed beyond SALT_SIZE (if salt = [] then fresh.1 else salt) with
  | error e => simp [hr, bind, Except.bind] at h
  | ok arg =>
    simp only [hr, bind, Except.bind] at h
    refine ⟨arg, ?_⟩
    split_ifs at h <;> cases h <;> rfl

theorem encrypt_key (nonce : Nonce) (plaintext : Bytes) (key : Key) :
    encrypt S nonce plaintext key.1 =
      .ok ⟨S.easy key nonce plaintext, nonce.1, (S.easy key nonce plaintext).take MAC_SIZE⟩ := by
  rw [encrypt, dif_pos key.2]

/-- Decryption under a key of the right size, from a nonce of the right size on. -/
theorem decrypt_key (hS : S.Correct) {c : EncryptedData} (h : NONCE_SIZE ≤ c.nonce.length) (beyond : Option Bytes)
    (key : Key) :
    decrypt S beyond c key.1 = match S.openEasy key (Block.pad NONCE_SIZE c.nonce) c.ciphertext with
      | some plaintext => .ok plaintext
      | none => if c.ciphertext.length < MAC_SIZE then .error (.exn (.invalidArgument "Invalid ciphertext size"))
          else .error (.exn (.runtimeError "Decryption failed (authentication error)")) := by
  rw [decrypt, dif_pos key.2]
  cases ho : S.openEasy key (Block.pad NONCE_SIZE c.nonce) c.ciphertext with
  | some m =>
    have := hS.length_open ho
    rw [if_neg (by omega)]
    simp [readFixed_of_le h, ho, bind, Except.bind]
  | none => simp [readFixed_of_le h, ho, bind, Except.bind]

/-- What `decrypt` accepts was opened by the primitive, with some 24 bytes read as the nonce. -/
theorem decrypt_ok {c : EncryptedData} {beyond : Option Bytes} {key : Key} {m : Bytes}
    (h : decrypt S beyond c key.1 = .ok m) :
    ∃ nonce, readFixed beyond NONCE_SIZE c.nonce = .ok nonce ∧ S.openEasy key nonce c.ciphertext = some m := by
  rw [decrypt, dif_pos key.2] at h
  split_ifs at h
  cases hr : readFixed beyond NONCE_SIZE c.nonce with
  | error e => simp [hr, bind, Except.bind] at h
  | ok nonce =>
    simp only [hr, bind, Except.bind] at h
    cases ho : S.openEasy key nonce c.ciphertext with
    | none => simp [ho] at h
    | some m' =>
      simp only [ho, Except.ok.injEq] at h
      exact ⟨nonce, rfl, h ▸ ho⟩

/-! ## A small model of the primitives -/

/-- The tag of a key and a nonce in the model. -/
def toyTag (k : Key) (n : Nonce) : Bytes := List.zipWith (· ^^^ ·) (k.1.take MAC_SIZE) (n.1.take MAC_SIZE)

/-- Primitives with the lengths of the real ones: the tag is made from key and nonce, and a derived key from the
first bytes of salt and passphrase. -/
def Sodium.toy : Sodium where
  pwhash p s := Block.pad _ (List.zipWith (· ^^^ ·) s.1 (Block.pad SALT_SIZE p).1)
  easy k n m := toyTag k n ++ m
  openEasy k n c := if c.take MAC_SIZE = toyTag k n then some (c.drop MAC_SIZE) else none

theorem length_toyTag (k : Key) (n : Nonce) : (toyTag k n).length = MAC_SIZE := by
  simp [toyTag, k.2, n.2, MASTER_KEY_SIZE, NONCE_SIZE, MAC_SIZE]

theorem toy_correct : Sodium.toy.Correct where
  open_easy k n m := by
    have h := length_toyTag k n
    simp [Sodium.toy, ← h]
  easy_open k n c m h := by
    simp only [Sodium.toy, Option.ite_none_right_eq_some, Option.some.injEq] at h ⊢
    rw [← h.1, ← h.2, List.take_append_drop]
  length_easy k n m := by simp [Sodium.toy, length_toyTag, Nat.add_comm]

theorem zipWith_xor_inj {a b c : Bytes} (ha : a.length = c.length) (hb : b.length = c.length)
    (h : List.zipWith (· ^^^ ·) a c = List.zipWith (· ^^^ ·) b c) : a = b := by
  induction c generalizing a b with
  | nil => rw [List.length_eq_zero_iff.mp ha, List.length_eq_zero_iff.mp hb]
  | cons z c ih =>
    obtain ⟨x, a, rfl⟩ := List.exists_cons_of_length_eq_add_one ha
    obtain ⟨y, b, rfl⟩ := List.exists_cons_of_length_eq_add_one hb
    rw [List.zipWith_cons_cons, List.zipWith_cons_cons, List.cons.injEq] at h
    have hxy : x = y := by rw [← UInt8.xor_right_inj z, UInt8.xor_comm, h.1, UInt8.xor_comm]
    rw [hxy, ih (by simpa using ha) (by simpa using hb) h.2]

theorem toyTag_inj {k k' : Key} {n : Nonce} (h : toyTag k n = toyTag k' n) : k.1.take MAC_SIZE = k'.1.take MAC_SIZE := by
  refine zipWith_xor_inj ?_ ?_ h <;> simp [k.2, k'.2, n.2, MASTER_KEY_SIZE, NONCE_SIZE, MAC_SIZE]

/-- Two derived keys of the model differ in their first bytes. -/
theorem toy_pwhash_inj {p s p' s'}
    (h : (Sodium.toy.pwhash p s).1.take MAC_SIZE = (Sodium.toy.pwhash p' s').1.take MAC_SIZE) :
    Sodium.toy.pwhash p s = Sodium.toy.pwhash p' s' := by
  have hpad : ∀ b : Bytes, b.length = MAC_SIZE → (Block.pad MASTER_KEY_SIZE b).1.take MAC_SIZE = b := by
    intro b hb
    change ((b ++ List.replicate MASTER_KEY_SIZE 0).take MASTER_KEY_SIZE).take MAC_SIZE = b
    rw [List.take_take, Nat.min_eq_left (by decide), List.take_left' hb]
  have hlen : ∀ (s : Salt) (q : Bytes), (List.zipWith (· ^^^ ·) s.1 (Block.pad SALT_SIZE q).1).length = MAC_SIZE := by
    intro s q
    rw [List.length_zipWith, s.2, (Block.pad SALT_SIZE q).2]
    rfl
  change (Block.pad MASTER_KEY_SIZE _).1.take MAC_SIZE = (Block.pad MASTER_KEY_SIZE _).1.take MAC_SIZE at h
  rw [hpad _ (hlen _ _), hpad _ (hlen _ _)] at h
  exact congrArg (Block.pad MASTER_KEY_SIZE) h

theorem toy_rejects : Sodium.toy.Rejects := by
  intro p s p' s' n m hne
  refine if_neg fun h => hne ?_
  have htag : (Sodium.toy.easy (Sodium.toy.pwhash p s) n m).take MAC_SIZE = toyTag (Sodium.toy.pwhash p s) n :=
    List.take_left' (length_toyTag _ _)
  exact toy_pwhash_inj (toyTag_inj (htag.symm.trans h))

theorem toy_seals : Sodium.toy.Seals := by
  intro k k' n
  have htake : ∀ m, (Sodium.toy.easy k n m).take MAC_SIZE = toyTag k n := fun m => List.take_left' (length_toyTag k n)
  by_cases h : toyTag k n = toyTag k' n
  · refine .inl fun m => ?_
    have hdrop : (Sodium.toy.easy k n m).drop MAC_SIZE = m := List.drop_left' (length_toyTag k n)
    have hopen : Sodium.toy.openEasy k' n (Sodium.toy.easy k n m) = some ((Sodium.toy.easy k n m).drop MAC_SIZE) :=
      if_pos ((htake m).trans h)
    rw [hopen, hdrop]
  · exact .inr fun m => if_neg fun htag => h ((htake m).symm.trans htag)

end Crypto

end Passdoq
