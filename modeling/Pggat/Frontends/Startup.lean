import Pggat.Base.Encodings
import Pggat.Ps.Sync

/-! How a client's connection is accepted: its startup packets, up to the one that opens a session or cancels a query,
and the checks that later decide on its encryption. -/
namespace Pggat.Frontends
open Pggat.Base
open Pggat.Ps (Fold CIString makeCIString Parameters)

inductive Severity where
  | fatal
  deriving DecidableEq, Repr

inductive Code where
  | protocolViolation
  | featureNotSupported
  | invalidAuthorizationSpecification
  | invalidPassword
  deriving DecidableEq, Repr

/-- `perror.Error` -/
structure PError where
  severity : Severity
  code : Code
  message : String
  deriving DecidableEq, Repr

inductive Error where
  | connection
  | refused (e : PError)
  | sslAlreadyEnabled
  | expectedEmptyReadBuffer
  | sslHandshakeFail
  deriving DecidableEq, Repr

/-- How accepting a connection ends without a result. `waiting` is a client that sends no more. -/
inductive Failure where
  | error (e : Error)
  | panic
  | waiting
  deriving DecidableEq, Repr

structure Parameter where
  key : GoString
  value : GoString
  deriving DecidableEq, Repr

structure BackendKey where
  processID : Int
  secretKey : Int
  deriving DecidableEq, Repr

/-- The `Mode` of a `Startup`. The source has branches for codes and versions that are none of the known ones. -/
inductive Startup where
  | cancel (key : BackendKey)
  | ssl
  | gssapi
  | otherControl
  | version3 (minorVersion : Int) (parameters : List Parameter)
  | otherVersion
  deriving DecidableEq, Repr

/-- What is written to the client. -/
inductive Reply where
  | byte (b : UInt8)
  | negotiateProtocolVersion (minorProtocolVersion : Int) (unrecognizedProtocolOptions : List GoString)
  | error (e : Error)
  deriving DecidableEq, Repr

/-- `handshaken` tells that the connection below is a TLS connection whose handshake has succeeded. -/
structure Codec where
  ssl : Bool := false
  handshaken : Bool := false
  deriving DecidableEq, Repr

/-- `fed.Conn` -/
structure Conn (fold : Fold) where
  codec : Codec := {}
  ssl : Bool := false
  user : GoString := []
  database : GoString := []
  initialParameters : Parameters fold := ∅
  written : List Reply := []

/-- What the network does to one `startup0`: the packet, unless it cannot be read, whether the answer can be written
and flushed, how much the decoder has buffered, and whether a handshake succeeds. -/
structure Turn where
  packet : Option Startup
  writes : Bool := true
  flushes : Bool := true
  buffered : Nat := 0
  handshakes : Bool := true
  deriving DecidableEq, Repr

/-- What a `startup0` without an error returns. -/
inductive Outcome where
  | again
  | done
  | cancelling (key : BackendKey)
  deriving DecidableEq, Repr

variable {fold : Fold}

abbrev ConnM (fold : Fold) := Action Failure (Conn fold)

def refuse {α : Type} (code : Code) (message : String) : ConnM fold α :=
  Action.throw (.error (.refused ⟨.fatal,code,message⟩))

/-- `Conn.WriteByte` and `Conn.WritePacket` -/
def write (turn : Turn) (reply : Reply) : ConnM fold Unit := fun c =>
  if turn.writes then (.ok (),{ c with written := c.written ++ [reply] }) else (.error (.error .connection),c)

/-- `Codec.EnableSSL`, which is all that `Conn.EnableSSL` does. -/
def enableSSL (turn : Turn) : ConnM fold Unit := fun c =>
  if c.codec.ssl then (.error (.error .sslAlreadyEnabled),c) else
  let c := { c with codec := { c.codec with ssl := true } }
  if turn.flushes = false then (.error (.error .connection),c) else
  if turn.buffered > 0 then (.error (.error .expectedEmptyReadBuffer),c) else
  if turn.handshakes = false then (.error (.error .sslHandshakeFail),c) else
  (.ok (),{ c with codec := { c.codec with handshaken := true } })

def setUser (value : GoString) : ConnM fold Unit := fun c => (.ok (),{ c with user := value })

def setDatabase (value : GoString) : ConnM fold Unit := fun c => (.ok (),{ c with database := value })

def setParameter (key value : GoString) : ConnM fold Unit := fun c =>
  (.ok (),{ c with initialParameters := c.initialParameters.insert (makeCIString fold key) value })

/-- The loop over the fields of `options`. The index is out of range behind a last `-c`. -/
def setOptions : List GoString → ConnM fold Unit
  | [] => pure ()
  | [field] =>
    if field = ascii ['-','c'] then Action.throw .panic
    else refuse .featureNotSupported "Flag not supported, sorry"
  | field :: set :: fields =>
    if field = ascii ['-','c'] then
      match cut 61 set with
      | none => refuse .protocolViolation "Expected key=value"
      | some (key,value) => do
        setParameter key value
        setOptions fields
    else refuse .featureNotSupported "Flag not supported, sorry"

def keyUser : GoString := ascii ['u','s','e','r']

def keyDatabase : GoString := ascii ['d','a','t','a','b','a','s','e']

def keyOptions : GoString := ascii ['o','p','t','i','o','n','s']

def keyReplication : GoString := ascii ['r','e','p','l','i','c','a','t','i','o','n']

def protocolExtension : GoString := ascii ['_','p','q','_','.']

/-- One turn of the loop over the parameters. It returns the key of a protocol extension. -/
def setStartupParameter (p : Parameter) : ConnM fold (List GoString) :=
  if p.key = keyUser then do
    setUser p.value
    pure []
  else if p.key = keyDatabase then do
    setDatabase p.value
    pure []
  else if p.key = keyOptions then do
    setOptions (fields p.value)
    pure []
  else if p.key = keyReplication then refuse .featureNotSupported "Replication mode is not supported yet"
  else if protocolExtension.isPrefixOf p.key then pure [p.key]
  else do
    setParameter p.key p.value
    pure []

def setStartupParameters : List Parameter → ConnM fold (List GoString)
  | [] => pure []
  | p :: ps => do
    let unsupported ← setStartupParameter p
    let unsupported' ← setStartupParameters ps
    pure (unsupported ++ unsupported')

def negotiate (turn : Turn) (minorVersion : Int) (unsupportedOptions : List GoString) : ConnM fold Unit :=
  if minorVersion ≠ 0 ∨ unsupportedOptions.length > 0 then write turn (.negotiateProtocolVersion 0 unsupportedOptions)
  else pure ()

/-- A user is required and names the database too when that is not given. -/
def finishStartup : ConnM fold Outcome := fun c =>
  if c.user = [] then refuse .invalidAuthorizationSpecification "User is required" c
  else if c.database = [] then (.ok .done,{ c with database := c.user })
  else (.ok .done,c)

/-- `startup0`, with or without an `SSLConfig` of the listener. -/
def startup0 (sslConfig : Bool) (turn : Turn) : ConnM fold Outcome :=
  match turn.packet with
  | none => Action.throw (.error .connection)
  | some (.cancel key) => pure (.cancelling key)
  | some .ssl =>
    if sslConfig = false then do
      write turn (.byte 78)
      pure .again
    else do
      write turn (.byte 83)
      enableSSL turn
      pure .again
  | some .gssapi => do
    write turn (.byte 78)
    pure .again
  | some .otherControl => refuse .protocolViolation "Unknown request code"
  | some (.version3 minorVersion parameters) => do
    let unsupportedOptions ← setStartupParameters parameters
    negotiate turn minorVersion unsupportedOptions
    finishStartup
  | some .otherVersion => refuse .protocolViolation "Unsupported protocol version"

/-- Another call of `startup0` follows unless the last one was done. -/
def accept0 (sslConfig : Bool) : List Turn → ConnM fold Outcome
  | [] => Action.throw .waiting
  | turn :: turns => do
    match ← startup0 sslConfig turn with
    | .again => accept0 sslConfig turns
    | outcome => pure outcome

/-- `Accept`. The error is written to the client, with no regard to whether that works. -/
def accept (sslConfig : Bool) (turns : List Turn) : ConnM fold Outcome := fun c =>
  match accept0 sslConfig turns c with
  | (.ok outcome,c) => (.ok outcome,c)
  | (.error (.error e),c) => (.error (.error e),{ c with written := c.written ++ [.error e] })
  | (.error f,c) => (.error f,c)

/-- `require_ssl`: the error that it returns instead of going on to the next handler. -/
def requireSSL (ssl : Bool) (c : Conn fold) : Option PError :=
  if ssl then
    if c.ssl = false then some ⟨.fatal,.invalidPassword,"SSL is required"⟩ else none
  else if c.ssl then some ⟨.fatal,.invalidPassword,"SSL is not allowed"⟩
  else none

/-- `matchers.SSL` -/
def matchesSSL (ssl : Bool) (c : Conn fold) : Bool := c.ssl == ssl

/-- The check of the `pgbouncer` handler, for a `client_tls_sslmode` that requires encryption or not. -/
def pgbouncerSSL (isRequired : Bool) (c : Conn fold) : Option PError :=
  if isRequired then
    if c.ssl = false then some ⟨.fatal,.invalidPassword,"SSL is required"⟩ else none
  else none

end Pggat.Frontends
