import Pggat.Auth.Credentials
import Pggat.Frontends.Startup

/-! What the `pgbouncer` handler is configured with, and what it reads out of the configuration. -/
namespace Pggat.Pgbouncer
open Pggat.Base Pggat.Auth
open Pggat.Ps (Fold CIString makeCIString Parameters)

inductive PoolMode where
  | unset
  | session
  | transaction
  | statement
  | other (text : GoString)
  deriving DecidableEq, Repr

inductive SSLMode where
  | unset
  | disable
  | allow
  | prefer
  | require
  | verifyCa
  | verifyFull
  | other (text : GoString)
  deriving DecidableEq, Repr

def SSLMode.isRequired : SSLMode → Bool
  | .disable | .allow | .prefer | .unset => false
  | _ => true

structure Database (fold : Fold) where
  dbName : GoString := []
  host : GoString := []
  port : Int := 0
  password : GoString := []
  authUser : GoString := []
  minPoolSize : Int := 0
  poolMode : PoolMode := .unset
  maxDBConnections : Int := 0
  startupParameters : Parameters fold := ∅

structure User where
  poolMode : PoolMode := .unset
  deriving DecidableEq, Repr

/-- The section `[pgbouncer]`, with the values of `Default`. -/
structure PgBouncer (fold : Fold) where
  poolMode : PoolMode := .session
  minPoolSize : Int := 0
  maxDBConnections : Int := 0
  trackExtraParameters : List (CIString fold) := [makeCIString fold (ascii "IntervalStyle".toList)]
  ignoreStartupParameters : List (CIString fold) := []
  authFile : Map GoString GoString := ∅
  authUser : GoString := []
  authQuery : GoString := ascii "SELECT usename, passwd FROM pg_shadow WHERE usename=$1".toList
  clientTLSSSLMode : SSLMode := .disable
  serverTLSSSLMode : SSLMode := .prefer

structure Config (fold : Fold) where
  pgBouncer : PgBouncer fold := {}
  databases : Map GoString (Database fold) := ∅
  users : Map GoString User := ∅

/-- `pool.Dialer` -/
structure Dialer (fold : Fold) where
  address : GoString
  sslMode : SSLMode
  username : GoString
  credentials : Option Credentials
  database : GoString
  parameters : Parameters fold

/-- `pool.Recipe` -/
structure Recipe (fold : Fold) where
  dialer : Dialer fold
  minConnections : Int
  maxConnections : Int

/-- `strconv.Itoa` -/
def itoa (n : Int) : GoString := ascii (toString n).toList

/-- `net.JoinHostPort` -/
def joinHostPort (host port : GoString) : GoString :=
  if 58 ∈ host then [91] ++ host ++ [93, 58] ++ port else host ++ [58] ++ port

def Database.address {fold : Fold} (db : Database fold) : GoString :=
  if db.host = [] ∨ [47].isPrefixOf db.host then
    let dir := if [47].isPrefixOf db.host then db.host else db.host ++ [47]
    let port := if db.port = 0 then 5432 else db.port
    dir ++ ascii ".s.PGSQL.".toList ++ itoa port
  else if db.port = 0 then joinHostPort db.host (ascii "5432".toList)
  else joinHostPort db.host (itoa db.port)

/-- How far `getPassword` comes without the auth query. -/
inductive Password where
  | known (password : GoString)
  | refused
  | ask (authUser : GoString)
  deriving DecidableEq, Repr

namespace Config
variable {fold : Fold}

def database (cfg : Config fold) (name : GoString) : Option (Database fold) :=
  match cfg.databases.get name with
  | some db => some db
  | none => cfg.databases.get (ascii ['*'])

/-- The user that runs the auth query for a database. The wildcard's auth user is not taken. -/
def authUser (cfg : Config fold) (name : GoString) : Option GoString :=
  if cfg.pgBouncer.authQuery = [] then none
  else
    let own := match cfg.databases.get name with
      | some db => db.authUser
      | none => []
    if own ≠ [] then some own
    else if cfg.pgBouncer.authUser ≠ [] then some cfg.pgBouncer.authUser
    else none

def getPassword (cfg : Config fold) (user name : GoString) : Password :=
  match cfg.pgBouncer.authFile.get user with
  | some password => .known password
  | none =>
    match cfg.authUser name with
    | some authUser => .ask authUser
    | none => .refused

def poolMode (cfg : Config fold) (db : Database fold) (user : GoString) : PoolMode :=
  if db.poolMode ≠ .unset then db.poolMode
  else
    match cfg.users.get user with
    | some u => if u.poolMode ≠ .unset then u.poolMode else cfg.pgBouncer.poolMode
    | none => cfg.pgBouncer.poolMode

/-- Only pools of these modes are made. -/
def Pools (cfg : Config fold) (db : Database fold) (user : GoString) : Prop :=
  cfg.poolMode db user = .session ∨ cfg.poolMode db user = .transaction

instance (cfg : Config fold) (db : Database fold) (user : GoString) : Decidable (cfg.Pools db user) :=
  inferInstanceAs (Decidable (_ ∨ _))

def recipe (cfg : Config fold) (db : Database fold) (user name : GoString) (creds : Option Credentials) :
    Recipe fold where
  dialer := {
    address := db.address
    sslMode := cfg.pgBouncer.serverTLSSSLMode
    username := user
    credentials := if db.password ≠ [] then fromString user db.password else creds
    database := if db.dbName = [] then name else db.dbName
    parameters := db.startupParameters }
  minConnections := if db.minPoolSize = 0 then cfg.pgBouncer.minPoolSize else db.minPoolSize
  maxConnections := if db.maxDBConnections = 0 then cfg.pgBouncer.maxDBConnections else db.maxDBConnections

/-- The startup parameters that every pool tracks. -/
def tracked (fold : Fold) : List (CIString fold) :=
  ["client_encoding", "datestyle", "timezone", "standard_conforming_strings", "application_name"].map fun name =>
    makeCIString fold (ascii name.toList)

def supports (cfg : Config fold) (key : CIString fold) : Bool :=
  (tracked fold).contains key || cfg.pgBouncer.trackExtraParameters.contains key ||
    cfg.pgBouncer.ignoreStartupParameters.contains key

end Config
end Pggat.Pgbouncer
