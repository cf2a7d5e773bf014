import Pggat.Auth.Authenticate

/-! What credentials answer for a client, and which secrets they take for the password itself. -/
namespace Pggat.Auth
open Pggat.Base

/-- `slices.Resize` -/
def resize (buffer : List UInt8) (length : Nat) : List UInt8 :=
  (buffer ++ List.replicate (length - buffer.length) 0).take length

def encodedLen (n : Nat) : Nat := n * 2

/-- `hex.Encode`, which writes to the front of a buffer. -/
def encodeInto (buffer src : List UInt8) : List UInt8 := hexEncode src ++ buffer.drop (encodedLen src.length)

/-- The second half of both `EncodeMD5`: the buffer with the first digest is hashed with the salt, resized and used
again for the second. -/
def saltedMD5 (lib : Library) (hexEncoded salt : List UInt8) : GoString :=
  let sum := lib.md5 (hexEncoded ++ salt)
  md5Mark ++ encodeInto (resize hexEncoded (encodedLen sum.length)) sum

/-- `MD5.EncodeMD5` with its buffer. -/
def hashEncodeMD5 (lib : Library) (hash salt : List UInt8) : GoString :=
  saltedMD5 lib (encodeInto (List.replicate (encodedLen hash.length) 0) hash) salt

/-- `Cleartext.EncodeMD5` -/
def cleartextEncodeMD5 (lib : Library) (username password : GoString) (salt : List UInt8) : GoString :=
  let sum1 := lib.md5 (password ++ username)
  saltedMD5 lib (encodeInto (List.replicate (encodedLen sum1.length) 0) sum1) salt

/-- Where the client's side of a SASL conversation finds its keys. -/
inductive Lookup where
  | clientPassword (password : GoString)
  | clientKeys (clientKey : List UInt8) (keys : ServerKeys)
  deriving DecidableEq, Repr

namespace Credentials

/-- `EncodeMD5`; `none` for credentials that are no `MD5Client`. -/
def encodeMD5 (lib : Library) (salt : List UInt8) : Credentials → Option GoString
  | scram _ => none
  | md5 hash => some (hashEncodeMD5 lib hash salt)
  | cleartext username password => some (cleartextEncodeMD5 lib username password salt)

/-- `VerifyMD5` returns no error; never for credentials that are no `MD5Server`. -/
def verifyMD5 (lib : Library) (salt : List UInt8) (value : GoString) (creds : Credentials) : Bool :=
  creds.encodeMD5 lib salt = some value

/-- `EncodeCleartext`; `none` for credentials that are no `CleartextClient`. -/
def encodeCleartext : Credentials → Option GoString
  | cleartext _ password => some password
  | _ => none

/-- `EncodeSASL`. Scram credentials need the client key that a login with them recovers; `none` for an error or for
credentials that are no `SASLClient`. -/
def encodeSASL (clientKey : Option (List UInt8)) (mechanisms : List GoString) : Credentials → Option (GoString × Lookup)
  | scram keys => do
    let key ← clientKey
    if mechanisms.contains scramSHA256 then return (scramSHA256,.clientKeys key keys) else none
  | md5 _ => none
  | cleartext _ password =>
    if mechanisms.contains scramSHA256 then some (scramSHA256,.clientPassword password) else none

end Credentials

theorem encodeInto_eq {buffer src : List UInt8} (h : buffer.length = encodedLen src.length) :
    encodeInto buffer src = hexEncode src := by
  rw [encodeInto,List.drop_of_length_le (Nat.le_of_eq h),List.append_nil]

private theorem length_resize (buffer : List UInt8) (n : Nat) : (resize buffer n).length = n := by
  simp only [resize,List.length_take,List.length_append,List.length_replicate]
  omega

theorem saltedMD5_eq (lib : Library) (hexEncoded salt : List UInt8) :
    saltedMD5 lib hexEncoded salt = md5Mark ++ hexEncode (lib.md5 (hexEncoded ++ salt)) := by
  rw [saltedMD5,encodeInto_eq (length_resize _ _)]

private theorem hashEncodeMD5_eq (lib : Library) (hash salt : List UInt8) :
    hashEncodeMD5 lib hash salt = encodeMD5 lib hash salt := by
  rw [hashEncodeMD5,saltedMD5_eq,encodeInto_eq List.length_replicate,encodeMD5]

/-- What a client of a user answers to a salt, as PostgreSQL checks it. -/
def expectedMD5 (lib : Library) (user password : GoString) (salt : List UInt8) : GoString :=
  md5Mark ++ hexEncode (lib.md5 (hexEncode (lib.md5 (password ++ user)) ++ salt))

theorem cleartextEncodeMD5_eq (lib : Library) (user password : GoString) (salt : List UInt8) :
    cleartextEncodeMD5 lib user password salt = expectedMD5 lib user password salt := by
  rw [cleartextEncodeMD5,saltedMD5_eq,encodeInto_eq List.length_replicate,expectedMD5]

theorem md5FromString_mark (digits : GoString) : md5FromString (md5Mark ++ digits) = hexDecode digits := by
  rw [md5FromString,if_pos (List.isPrefixOf_iff_prefix.mpr (List.prefix_append ..)),List.drop_left]

theorem md5FromString_eq_none (s : GoString) :
    md5FromString s = none ↔ ∀ digits, s = md5Mark ++ digits → hexDecode digits = none := by
  constructor
  · rintro h digits rfl
    rwa [md5FromString_mark] at h
  · intro h
    by_cases hp : md5Mark <+: s
    · obtain ⟨digits,rfl⟩ := hp
      rw [md5FromString_mark,h digits rfl]
    · rw [md5FromString,if_neg]
      rwa [List.isPrefixOf_iff_prefix]

/-- The hash of a password and the password itself answer every salt alike, as PostgreSQL expects it, and each accepts
what the other answers. -/
theorem md5_credentials_agree (lib : Library) (user password digits : GoString)
    (hex : digits.map lowerByte = hexEncode (lib.md5 (password ++ user))) :
    ∃ hash, md5FromString (md5Mark ++ digits) = some hash ∧ ∀ salt,
      hashEncodeMD5 lib hash salt = expectedMD5 lib user password salt ∧
      hashEncodeMD5 lib hash salt = cleartextEncodeMD5 lib user password salt ∧
      (Credentials.md5 hash).verifyMD5 lib salt (cleartextEncodeMD5 lib user password salt) = true ∧
      (Credentials.cleartext user password).verifyMD5 lib salt (hashEncodeMD5 lib hash salt) = true := by
  refine ⟨lib.md5 (password ++ user),by rw [md5FromString_mark,hexDecode_of_lower hex],fun salt => ?_⟩
  have expected : hashEncodeMD5 lib (lib.md5 (password ++ user)) salt = expectedMD5 lib user password salt := by
    rw [hashEncodeMD5_eq,encodeMD5,expectedMD5]
  have same := expected.trans (cleartextEncodeMD5_eq lib user password salt).symm
  refine ⟨expected,same,?_⟩
  simp [Credentials.verifyMD5,Credentials.encodeMD5,same]

/-- A library whose digest is one byte sixteen times. -/
def tally : Library where
  Conversation := Unit
  start _ := ()
  write c _ := (c,.failed)
  md5 bs := List.replicate 16 (bs.foldl (· + ·) 0xA0)

theorem md5_credentials_agree_capitals :
    ∃ hash, md5FromString (md5Mark ++ (List.replicate 16 [65, 102]).flatten) = some hash ∧ ∀ salt,
      hashEncodeMD5 tally hash salt = expectedMD5 tally [10] [5] salt ∧
      hashEncodeMD5 tally hash salt = cleartextEncodeMD5 tally [10] [5] salt ∧
      (Credentials.md5 hash).verifyMD5 tally salt (cleartextEncodeMD5 tally [10] [5] salt) = true ∧
      (Credentials.cleartext [10] [5]).verifyMD5 tally salt (hashEncodeMD5 tally hash salt) = true :=
  md5_credentials_agree tally [10] [5] _ (by decide)

def verifierText (iterations salt storedKey serverKey : GoString) : GoString :=
  scramSHA256 ++ 36 :: (iterations ++ 58 :: (salt ++ 36 :: (storedKey ++ 58 :: serverKey)))

/-- A stored SCRAM secret as PostgreSQL writes it: a number of iterations, a salt and two keys of 32 bytes. -/
def IsVerifier (s : GoString) : Prop :=
  ∃ iterations salt storedKey serverKey, s = verifierText iterations salt storedKey serverKey ∧
    (decimal iterations).isSome ∧ (base64Groups salt).isSome ∧
    (∃ key, base64Groups storedKey = some key ∧ key.length = 32) ∧
    ∃ key, base64Groups serverKey = some key ∧ key.length = 32

/-- A text with the parts of a stored SCRAM secret in which the number may have a sign, line ends may stand in the
base64 and the keys may have any length. -/
def ResemblesVerifier (s : GoString) : Prop :=
  ∃ iterations salt storedKey serverKey, s = verifierText iterations salt storedKey serverKey ∧
    (atoi iterations).isSome ∧ (base64Decode salt).isSome ∧ (base64Decode storedKey).isSome ∧
    (base64Decode serverKey).isSome

/-- `md5` and hexadecimal digits, as many as `len` allows. -/
def IsMD5 (len : Nat → Prop) (s : GoString) : Prop :=
  ∃ digits, s = md5Mark ++ digits ∧ len digits.length ∧ ∀ b ∈ digits, (hexDigit b).isSome

/-- Credentials that answer for a client whose password is the secret. -/
structure Plaintext (lib : Library) (user s : GoString) (creds : Credentials) : Prop where
  md5 : ∀ salt, creds.encodeMD5 lib salt = some (expectedMD5 lib user s salt)
  cleartext : creds.encodeCleartext = some s
  sasl : ∀ mechanisms, scramSHA256 ∈ mechanisms →
    creds.encodeSASL none mechanisms = some (scramSHA256,.clientPassword s)

theorem plaintext_cleartext (lib : Library) (user s : GoString) : Plaintext lib user s (.cleartext user s) where
  md5 salt := congrArg some (cleartextEncodeMD5_eq lib user s salt)
  cleartext := rfl
  sasl mechanisms h := by simp [Credentials.encodeSASL,h]

private theorem scramFromString_verifierText {iterations salt storedKey serverKey : GoString}
    (hi : (atoi iterations).isSome) (hs : (base64Decode salt).isSome) (hk : (base64Decode storedKey).isSome)
    (hv : (base64Decode serverKey).isSome) :
    (scramFromString (verifierText iterations salt storedKey serverKey)).isSome := by
  obtain ⟨n,hi⟩ := Option.isSome_iff_exists.mp hi
  obtain ⟨salt',hs⟩ := Option.isSome_iff_exists.mp hs
  obtain ⟨storedKey',hk⟩ := Option.isSome_iff_exists.mp hk
  obtain ⟨serverKey',hv⟩ := Option.isSome_iff_exists.mp hv
  have alg : (36 : UInt8) ∉ scramSHA256 := by decide
  have iter36 : (36 : UInt8) ∉ iterations := fun h => absurd (mem_of_atoi hi _ h) (by decide)
  have iter58 : (58 : UInt8) ∉ iterations := fun h => absurd (mem_of_atoi hi _ h) (by decide)
  have salt36 : (36 : UInt8) ∉ salt := fun h => absurd (mem_of_base64Decode hs _ h) (by decide)
  have key58 : (58 : UInt8) ∉ storedKey := fun h => absurd (mem_of_base64Decode hk _ h) (by decide)
  have iterSalt : (36 : UInt8) ∉ iterations ++ 58 :: salt := by simp [iter36,salt36]
  have regroup : iterations ++ 58 :: (salt ++ 36 :: (storedKey ++ 58 :: serverKey)) =
      (iterations ++ 58 :: salt) ++ 36 :: (storedKey ++ 58 :: serverKey) := by simp
  rw [verifierText,regroup,scramFromString,cut_append alg]
  simp only [Option.bind_eq_bind,Option.bind_some,ne_eq,not_true,if_false,cut_append iterSalt,cut_append iter58,
    cut_append key58,hi,hs,hk,hv]
  rfl

private theorem verifierText_of_scramFromString {s : GoString} {keys : ServerKeys} (h : scramFromString s = some keys) :
    ResemblesVerifier s := by
  simp only [scramFromString,Option.bind_eq_bind,Option.bind_eq_some_iff,Prod.exists] at h
  obtain ⟨alg,iterKeys,hs,h⟩ := h
  split at h
  · cases h
  rename_i halg
  rw [Decidable.not_not] at halg
  simp only [Option.bind_eq_some_iff,Prod.exists] at h
  obtain ⟨iterSalt,keys',hk,iter,salt,hi,storedKey,serverKey,hv,n,hn,_,hsalt,_,hstored,_,hserver,-⟩ := h
  refine ⟨iter,salt,storedKey,serverKey,?_,by simp [hn],by simp [hsalt],by simp [hstored],by simp [hserver]⟩
  rw [eq_of_cut hs,halg,eq_of_cut hk,eq_of_cut hi,eq_of_cut hv,verifierText]
  simp

private theorem scramFromString_eq_none (s : GoString) : scramFromString s = none ↔ ¬ ResemblesVerifier s := by
  constructor
  · rintro h ⟨iterations,salt,storedKey,serverKey,rfl,hi,hs,hk,hv⟩
    simpa [h] using scramFromString_verifierText hi hs hk hv
  · intro h
    cases hs : scramFromString s with
    | none => rfl
    | some keys => exact absurd (verifierText_of_scramFromString hs) h

private theorem md5FromString_isSome (s : GoString) : md5FromString s ≠ none ↔ IsMD5 (· % 2 = 0) s := by
  rw [ne_eq,md5FromString_eq_none]
  simp only [hexDecode_eq_none,IsMD5]
  push Not
  constructor
  · rintro ⟨digits,hs,hl,hb⟩
    exact ⟨digits,hs,by omega,fun b h => Option.isSome_iff_ne_none.mpr (hb b h)⟩
  · rintro ⟨digits,hs,hl,hb⟩
    exact ⟨digits,hs,by omega,fun b h => Option.isSome_iff_ne_none.mp (hb b h)⟩

private theorem plaintext_fromString {lib : Library} {user s : GoString} (nonempty : s ≠ []) :
    (∃ creds, fromString user s = some creds ∧ Plaintext lib user s creds) ↔
      scramFromString s = none ∧ md5FromString s = none := by
  rw [fromString,if_neg nonempty]
  cases hs : scramFromString s with
  | some keys => simpa using fun h : Plaintext lib user s (.scram keys) => nomatch h.cleartext
  | none =>
    cases hm : md5FromString s with
    | some hash => simpa using fun h : Plaintext lib user s (.md5 hash) => nomatch h.cleartext
    | none => simpa using plaintext_cleartext lib user s

/-- A secret that has neither stored form is taken for the password itself unless it is `md5` with another even number
of hexadecimal digits or resembles a SCRAM secret. -/
theorem secret_is_plaintext_iff (lib : Library) (user s : GoString) (nonempty : s ≠ [])
    (notMD5 : ¬ IsMD5 (· = 32) s) (notScram : ¬ IsVerifier s) :
    (∃ creds, fromString user s = some creds ∧ Plaintext lib user s creds) ↔
      ¬ IsMD5 (fun n => n % 2 = 0 ∧ n ≠ 32) s ∧ ¬ (ResemblesVerifier s ∧ ¬ IsVerifier s) := by
  have even : IsMD5 (· % 2 = 0) s ↔ IsMD5 (fun n => n % 2 = 0 ∧ n ≠ 32) s := by
    constructor
    · rintro ⟨digits,hs,hl,hb⟩
      exact ⟨digits,hs,⟨hl,fun h => notMD5 ⟨digits,hs,h,hb⟩⟩,hb⟩
    · rintro ⟨digits,hs,hl,hb⟩
      exact ⟨digits,hs,hl.1,hb⟩
  have md5 : md5FromString s = none ↔ ¬ IsMD5 (fun n => n % 2 = 0 ∧ n ≠ 32) s := by
    rw [← even,← md5FromString_isSome,not_not]
  rw [plaintext_fromString nonempty,scramFromString_eq_none,md5,and_comm]
  simp [notScram]

theorem secret_is_plaintext_secret :
    ∃ creds, fromString [97] [115] = some creds ∧ Plaintext tally [97] [115] creds := by
  have notMD5 (P : Nat → Prop) : ¬ IsMD5 P [115] := fun ⟨_,h,_⟩ => by simp [md5Mark,ascii] at h
  refine (secret_is_plaintext_iff tally [97] [115] (by decide) (notMD5 _) ?_).mpr ⟨notMD5 _,?_⟩
  · rintro ⟨_,_,_,_,h,_⟩
    simp [verifierText,scramSHA256,ascii] at h
  · rintro ⟨⟨_,_,_,_,h,_⟩,_⟩
    simp [verifierText,scramSHA256,ascii] at h

/-- The password `md5ab` is taken for the hash of another. -/
theorem md5ab_is_no_plaintext :
    let user := ascii ['b', 'o', 'b']
    let secret := md5Mark ++ ascii ['a', 'b']
    secret ≠ [] ∧ ¬ IsMD5 (· = 32) secret ∧ ¬ IsVerifier secret ∧ fromString user secret = some (.md5 [0xAB]) ∧
      ∀ lib creds, fromString user secret = some creds → ¬ Plaintext lib user secret creds := by
  have classified : fromString (ascii ['b', 'o', 'b']) (md5Mark ++ ascii ['a', 'b']) = some (.md5 [0xAB]) := by decide
  refine ⟨by decide,?_,?_,classified,?_⟩
  · rintro ⟨digits,h,hl,-⟩
    rw [← List.append_cancel_left h] at hl
    exact absurd hl (by decide)
  · rintro ⟨_,_,_,_,h,-⟩
    simp [md5Mark,verifierText,scramSHA256,ascii] at h
  · intro lib creds h plain
    rw [classified] at h
    cases h
    exact nomatch plain.cleartext

end Pggat.Auth
