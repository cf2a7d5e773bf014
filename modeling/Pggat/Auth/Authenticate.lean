import Pggat.Auth.Credentials
import Pggat.Base.Action

/-! How a client proves that it knows a password before its session is served. -/
namespace Pggat.Auth
open Pggat.Base

/-- A packet of the client, by what it decodes to as a `SASLInitialResponse`, a `SASLResponse` or a `PasswordMessage`. -/
structure Message where
  asInitial : Option (GoString × List UInt8) := none
  asResponse : Option (List UInt8) := none
  asPassword : Option GoString := none

/-- What `Write` of a server's conversation returns; `done` is `io.EOF`. -/
inductive Reply where
  | more (resp : List UInt8)
  | done (resp : List UInt8)
  | failed

/-- The scram library and MD5. A conversation starts from the credentials that its lookup reads. -/
structure Library where
  Conversation : Type
  start : Credentials → Conversation
  write : Conversation → List UInt8 → Conversation × Reply
  md5 : List UInt8 → List UInt8

/-- What is drawn at random while a client is authenticated; `none` if the source fails. -/
structure Random where
  salt : Option (List UInt8)
  key : Option (UInt32 × UInt32)

/-- A packet for the client. -/
inductive Sent where
  | sasl (mechanisms : List GoString)
  | saslContinue (resp : List UInt8)
  | saslFinal (resp : List UInt8)
  | md5Password (salt : List UInt8)
  | ok
  | backendKeyData (processID secretKey : UInt32)
  deriving DecidableEq, Repr

inductive Failure where
  | closed
  | decode
  | mechanism
  | failed
  | random
  deriving DecidableEq, Repr

/-- The connection of a client. It closes after the packets of `inbox`, and takes `writable` more. -/
structure Conn where
  user : GoString
  database : GoString
  inbox : List Message
  writable : Nat
  outbox : List Sent := []
  authenticated : Bool := false
  backendKey : Option (UInt32 × UInt32) := none

abbrev Exchange := Action Failure Conn

def readPacket {α : Type} (decode : Message → Option α) : Exchange α := fun c =>
  match c.inbox with
  | [] => (.error .closed,c)
  | m :: rest =>
    match decode m with
    | none => (.error .decode,{ c with inbox := rest })
    | some a => (.ok a,{ c with inbox := rest })

def writePacket (packet : Sent) : Exchange Unit := fun c =>
  match c.writable with
  | 0 => (.error .closed,c)
  | n+1 => (.ok (),{ c with writable := n, outbox := c.outbox ++ [packet] })

def draw {α : Type} : Option α → Exchange α
  | none => Action.throw .random
  | some a => pure a

def require (condition : Prop) [Decidable condition] (failure : Failure) : Exchange Unit :=
  if condition then pure () else Action.throw failure

/-- The turns of the loop in `authenticationSASL`. Each reads a message, so there are no more than messages. -/
def saslTurns (lib : Library) : Nat → lib.Conversation → Reply → Exchange Unit
  | _, _, .failed => Action.throw .failed
  | _, _, .done resp => writePacket (.saslFinal resp)
  | 0, _, .more resp => do
    writePacket (.saslContinue resp)
    Action.throw .closed
  | n+1, conversation, .more resp => do
    writePacket (.saslContinue resp)
    let p ← readPacket Message.asResponse
    saslTurns lib n (lib.write conversation p).1 (lib.write conversation p).2

def saslLoop (lib : Library) (first : lib.Conversation × Reply) : Exchange Unit := fun c =>
  saslTurns lib c.inbox.length first.1 first.2 c

def authenticationSASL (lib : Library) (creds : Credentials) : Exchange Unit := do
  writePacket (.sasl [scramSHA256])
  let (mechanism,response) ← readPacket Message.asInitial
  require (mechanism = scramSHA256) .mechanism
  saslLoop lib (lib.write (lib.start creds) response)

/-- `MD5.EncodeMD5` -/
def encodeMD5 (lib : Library) (hash salt : List UInt8) : GoString :=
  md5Mark ++ hexEncode (lib.md5 (hexEncode hash ++ salt))

def authenticationMD5 (lib : Library) (random : Random) (hash : List UInt8) : Exchange Unit := do
  let salt ← draw random.salt
  writePacket (.md5Password salt)
  let pw ← readPacket Message.asPassword
  require (encodeMD5 lib hash salt = pw) .failed

/-- What the type switch of `authenticate` does: scram and cleartext credentials are `SASLServer`s, and those of MD5
are not. -/
def prove (lib : Library) (random : Random) : Option Credentials → Exchange Unit
  | none => pure ()
  | some (.md5 hash) => authenticationMD5 lib random hash
  | some creds => authenticationSASL lib creds

def authenticate (lib : Library) (random : Random) (creds : Option Credentials) : Exchange Unit := do
  prove lib random creds
  writePacket .ok
  (fun c => (.ok (),{ c with authenticated := true }) : Exchange Unit)
  let (processID,secretKey) ← draw random.key
  (fun c => (.ok (),{ c with backendKey := some (processID,secretKey) }) : Exchange Unit)
  writePacket (.backendKeyData processID secretKey)

/-- `Authenticate` -/
def authenticateConn (lib : Library) (random : Random) (creds : Option Credentials) : Exchange Unit := fun c =>
  if c.authenticated then (.ok (),c) else authenticate lib random creds c

variable {α : Type} {c c' : Conn}

variable {a : α}

variable {lib : Library}

variable {creds : Credentials}

variable {random : Random}

end Pggat.Auth
