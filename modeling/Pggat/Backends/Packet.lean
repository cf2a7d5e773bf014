import Pggat.Base.Runes

/-! Packets of the protocol, version 3. -/
namespace Pggat.Backends
open Pggat.Base

structure Packet where
  type : UInt8
  payload : List UInt8
  deriving DecidableEq, Repr

namespace Packets

def typeOf (c : Char) : UInt8 := UInt8.ofNat c.toNat

def typeBind := typeOf 'B'
def typeBindComplete := typeOf '2'
def typeClose := typeOf 'C'
def typeCloseComplete := typeOf '3'
def typeCommandComplete := typeOf 'C'
def typeCopyData := typeOf 'd'
def typeCopyDone := typeOf 'c'
def typeCopyFail := typeOf 'f'
def typeCopyInResponse := typeOf 'G'
def typeCopyOutResponse := typeOf 'H'
def typeDataRow := typeOf 'D'
def typeDescribe := typeOf 'D'
def typeEmptyQueryResponse := typeOf 'I'
def typeExecute := typeOf 'E'
def typeFlush := typeOf 'H'
def typeFunctionCall := typeOf 'F'
def typeFunctionCallResponse := typeOf 'V'
def typeMarkiplierResponse := typeOf 'E'
def typeNoData := typeOf 'n'
def typeNoticeResponse := typeOf 'N'
def typeNotificationResponse := typeOf 'A'
def typeParameterDescription := typeOf 't'
def typeParameterStatus := typeOf 'S'
def typeParse := typeOf 'P'
def typeParseComplete := typeOf '1'
def typePortalSuspended := typeOf 's'
def typeQuery := typeOf 'Q'
def typeReadyForQuery := typeOf 'Z'
def typeRowDescription := typeOf 'T'
def typeSync := typeOf 'S'

def sync : Packet := ⟨typeSync,[]⟩

def copyFail (reason : GoString) : Packet := ⟨typeCopyFail,reason ++ [0]⟩

def query (q : GoString) : Packet := ⟨typeQuery,q ++ [0]⟩

def readyForQuery (state : UInt8) : Packet := ⟨typeReadyForQuery,[state]⟩

end Packets
end Pggat.Backends
