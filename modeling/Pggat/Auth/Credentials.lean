import Pggat.Base.Encodings

/-! Credentials, and how a stored secret is classified. -/
namespace Pggat.Auth
open Pggat.Base

/-- `scram.ServerKeys`; the hash is always SHA-256. -/
structure ServerKeys where
  iters : Int
  salt : List UInt8
  storedKey : List UInt8
  serverKey : List UInt8
  deriving DecidableEq, Repr

inductive Credentials where
  | scram (keys : ServerKeys)
  | md5 (hash : List UInt8)
  | cleartext (username password : GoString)
  deriving DecidableEq, Repr

def scramSHA256 : GoString := ascii ['S', 'C', 'R', 'A', 'M', '-', 'S', 'H', 'A', '-', '2', '5', '6']

/-- `SCRAM-SHA-256$iterations:salt$storedKey:serverKey` -/
def scramFromString (password : GoString) : Option ServerKeys := do
  let (alg,iterKeys) ← cut 36 password
  if alg ≠ scramSHA256 then none
  let (iterSalt,keys) ← cut 36 iterKeys
  let (iter,salt) ← cut 58 iterSalt
  let (storedKey,serverKey) ← cut 58 keys
  return {
    iters := ← atoi iter
    salt := ← base64Decode salt
    storedKey := ← base64Decode storedKey
    serverKey := ← base64Decode serverKey }

def md5Mark : GoString := ascii ['m', 'd', '5']

def md5FromString (value : GoString) : Option (List UInt8) :=
  if md5Mark.isPrefixOf value then hexDecode (value.drop md5Mark.length) else none

/-- `none` is Go's nil interface. -/
def fromString (user password : GoString) : Option Credentials :=
  if password = [] then none
  else
    match scramFromString password with
    | some keys => some (.scram keys)
    | none =>
      match md5FromString password with
      | some hash => some (.md5 hash)
      | none => some (.cleartext user password)

end Pggat.Auth
