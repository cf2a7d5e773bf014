import Pggat.Fed.DecodeSafety
import Pggat.Fed.ReadBack

/-! A packet that is written and read again is the packet that was sent. -/
namespace Pggat.Fed
open Pggat.Base Encoder

/-- The length that the 32 bits of the length field announce for a payload of `n` bytes. -/
def announced (n : Nat) : Int := (((n + 4) % 2 ^ 32 : Nat) : Int) - 4

theorem announced_eq {n : Nat} (h : n + 4 < 2 ^ 32) : announced n = n := by
  rw [announced,Nat.mod_eq_of_lt h]
  omega

section Limit
variable {limit : Schema → Nat}

/-- The decoder reads the header that the encoder wrote, up to the 32 bits of the length field. -/
theorem header_headerBytes (type : UInt8) (n : Nat) (rest : List UInt8) :
    Decoder.header (type ≠ 0) (headerBytes type n ++ rest) = some (type,announced n,rest) := by
  obtain ⟨m,hm,hlt⟩ : ∃ m, (n + 4) % 2 ^ 32 = m ∧ m < 256 ^ 4 := ⟨_,rfl,Nat.mod_lt _ (by decide)⟩
  have hfield : (((n : Int) + 4) % 256 ^ 4).toNat = m := by
    rw [← hm]
    omega
  have hbe : beNat (beBytes 4 m) = m := by rw [beNat_beBytes,Nat.mod_eq_of_lt hlt]
  have hlen : (beBytes 4 m).length = 4 := length_beBytes _ _
  have htake : (beBytes 4 m ++ rest).take 4 = beBytes 4 m := List.take_left' hlen
  have hdrop : (beBytes 4 m ++ rest).drop 4 = rest := List.drop_left' hlen
  rw [headerBytes,hfield,announced,hm]
  by_cases ht : type = 0
  · simp [Decoder.header,ht,htake,hdrop,hbe]
  · simp [Decoder.header,ht,htake,hdrop,hbe]

variable {last : Bool} {s : Schema} {v : Value}

theorem readPacket_reads {type : UInt8} {bs rest : List UInt8} {d : Decoder}
    (hs : ReadsAs limit last s.read bs v) (hlast : last = true → bs.length + 4 < 2 ^ 32)
    (hb : d.packetPos = d.packetLength) (hu : d.unread = headerBytes type bs.length ++ (bs ++ rest)) :
    ∃ d', readPacket limit (type ≠ 0) type s d = (.ok v,d') ∧
      d'.wire = ⟨rest,announced bs.length - bs.length⟩ := by
  have hup : d.upcoming (type ≠ 0) = some (type,announced bs.length,bs ++ rest) := by
    rw [Decoder.upcoming,hb,Int.sub_self,if_neg (by decide),hu]
    exact header_headerBytes type bs.length (bs ++ rest)
  have hnext := Decoder.next_spec (type ≠ 0) d
  rw [hup] at hnext
  obtain ⟨d',hn,hbytes,htype,hlength,hpos⟩ := hnext
  obtain ⟨ds,hr,hds⟩ := hs rest (announced bs.length) fun hl => announced_eq (hlast hl)
  have hw : d'.wire = ⟨bs ++ rest,announced bs.length⟩ := by
    rw [Decoder.wire,hbytes,hlength,hpos,Int.sub_zero]
  have hd := (decode_simulates s d' : Agrees limit _ _).1
  rw [hw,hr] at hd
  obtain ⟨d'',hd,hwire⟩ := hd hds
  refine ⟨d'',?_,hwire⟩
  rw [readPacket,hn]
  simpa [htype] using hd

/-- Writing a packet emits its header and its payload and leaves the encoder at its end. -/
theorem writePacket_writes (type : UInt8) (hr : s.Regular last)
    (hw : s.WellFormed limit v) {e : Encoder} (he : e.Open) (hb : e.packetPos = e.packetLength) :
    ∃ e', writePacket type s v e = (.ok (),e') ∧ length s v = some (s.bytes v).length ∧
      e'.emitted = e.emitted ++ (headerBytes type (s.bytes v).length ++ s.bytes v) ∧
      e'.packetLength = (s.bytes v).length ∧ e'.packetPos = (s.bytes v).length := by
  obtain ⟨hwrites,hlength⟩ := encode_coded s last v hr hw
  obtain ⟨e₁,hn,hopen,hemit,_,hlen,hpos⟩ := next_spec type (s.bytes v).length he hb
  obtain ⟨e₂,hm,ha⟩ := hwrites e₁ hopen
  refine ⟨e₂,?_,hlength,?_,?_,?_⟩
  · simp only [writePacket,hlength]
    exact (Action.bind_ok hn).trans hm
  · rw [ha.emitted,hemit,List.append_assoc]
  · rw [ha.packetLength,hlen]
  · rw [ha.packetPos,hpos,Int.zero_add]

/-- Every packet of a regular schema comes back: the length template counts its payload, and any decoder
that receives its bytes, however they are cut into chunks, returns the value and stops behind them. -/
theorem packet_round_trip (type : UInt8) (s : Schema) (v : Value) (hr : s.Regular true) (hw : s.WellFormed limit v)
    (hlen : (s.bytes v).length + 4 < 2 ^ 32) (e : Encoder) (he : e.Open) (hb : e.packetPos = e.packetLength) :
    ∃ e' payload, writePacket type s v e = (.ok (),e') ∧ length s v = some payload.length ∧
      e'.emitted = e.emitted ++ (headerBytes type payload.length ++ payload) ∧
      e'.packetLength = payload.length ∧ e'.packetPos = payload.length ∧
      ∀ (d : Decoder) (rest : List UInt8), d.packetPos = d.packetLength →
        d.unread = headerBytes type payload.length ++ (payload ++ rest) →
        ∃ d', readPacket limit (type ≠ 0) type s d = (.ok v,d') ∧ d'.packetPos = d'.packetLength ∧ d'.unread = rest := by
  obtain ⟨e',hwrite,hlength,hemit,hl,hp⟩ := writePacket_writes type hr hw he hb
  refine ⟨e',s.bytes v,hwrite,hlength,hemit,hl,hp,?_⟩
  intro d rest hbal hu
  obtain ⟨d',hread,hwire⟩ := readPacket_reads (s.reads_bytes true v hr hw) (fun _ => hlen) hbal hu
  rw [announced_eq hlen,Decoder.wire,Wire.mk.injEq] at hwire
  exact ⟨d',hread,by omega,hwire.1⟩

end Limit

/-- A response without data, which is not the response with no bytes. -/
theorem packet_round_trip_sasl :
    ∃ e' payload, writePacket 0x70 saslInitialResponse (.list [.str [0x58], .null]) {} = (.ok (),e') ∧
      length saslInitialResponse (.list [.str [0x58], .null]) = some payload.length ∧
      e'.emitted = Encoder.emitted {} ++ (headerBytes 0x70 payload.length ++ payload) ∧
      e'.packetLength = payload.length ∧ e'.packetPos = payload.length ∧
      ∀ (d : Decoder) (rest : List UInt8), d.packetPos = d.packetLength →
        d.unread = headerBytes 0x70 payload.length ++ (payload ++ rest) →
        ∃ d', readPacket (fun _ => 2 ^ 48) ((0x70 : UInt8) ≠ 0) 0x70 saslInitialResponse d =
          (.ok (.list [.str [0x58], .null]),d') ∧ d'.packetPos = d'.packetLength ∧ d'.unread = rest :=
  packet_round_trip 0x70 saslInitialResponse (.list [.str [0x58], .null])
    (by simp [saslInitialResponse,Schema.Regular,Fields.Regular])
    (by simp [saslInitialResponse,Schema.WellFormed,Fields.WellFormed,IntType.Fits,IntType.isSigned,IntType.bytes])
    (by decide) {} ⟨rfl,by simp [defaultBufferSize]⟩ rfl

/-- The length field of a string that fills its packet to 2 ^ 32 bytes wraps around. -/
theorem wrapped_length {limit : Schema → Nat} {s : GoString} (h0 : 0 ∉ s) (hlen : s.length + 5 = 2 ^ 32) :
    ∃ e', writePacket 0x51 (.basic .string) (.str s) {} = (.ok (),e') ∧
      ∀ d : Decoder, d.packetPos = d.packetLength → d.unread = e'.emitted →
        ∃ d', readPacket limit ((0x51 : UInt8) ≠ 0) 0x51 (.basic .string) d = (.ok (.str s),d') ∧
          d'.packetPos ≠ d'.packetLength := by
  have hw : Schema.WellFormed limit (.basic .string) (.str s) := h0
  obtain ⟨e',hwrite,_,hemit,_,_⟩ := writePacket_writes 0x51 (show Schema.Regular false (.basic .string) from trivial) hw
    (e := {}) ⟨rfl,Nat.zero_le _⟩ rfl
  refine ⟨e',hwrite,fun d hb hu => ?_⟩
  have hread := (Schema.basic .string).reads_bytes false (.str s) trivial hw
  have hempty : emitted {} = [] := rfl
  replace hu : d.unread = headerBytes 0x51 ((Schema.basic .string).bytes (.str s)).length ++
      ((Schema.basic .string).bytes (.str s) ++ []) := by
    rw [hu,hemit,hempty,List.nil_append,List.append_nil]
  obtain ⟨d',hr,hwire⟩ := readPacket_reads hread (by simp) hb hu
  refine ⟨d',hr,?_⟩
  have hbytes : ((Schema.basic .string).bytes (.str s)).length + 4 = 2 ^ 32 := by
    simp only [Schema.bytes,List.length_append,List.length_singleton]
    omega
  rw [announced,hbytes,Decoder.wire,Wire.mk.injEq] at hwire
  omega

def taggedByte : Schema := .map .uint8 (.cons 1 (.basic (.int .uint8)) .nil)

/-- Elements without bytes are lost, the end of a zero terminated slice whose elements start with a map
cannot be written, and a payload of 2 ^ 32 - 4 bytes announces a length of -4. -/
theorem packet_does_not_return :
    (Schema.WellFormed (fun _ => 2 ^ 48) (.remaining (.array 0 (.basic (.int .uint8)))) (.list [.list []]) ∧
      (writePacket 0x52 (.remaining (.array 0 (.basic (.int .uint8)))) (.list [.list []]) {}).2.emitted =
        [0x52, 0, 0, 0, 4] ∧
      (readPacket (fun _ => 2 ^ 48) true 0x52 (.remaining (.array 0 (.basic (.int .uint8))))
        { reads := [⟨[0x52, 0, 0, 0, 4],by decide⟩] }).1 = .ok (.list [])) ∧
    (Schema.WellFormed (fun _ => 2 ^ 48) (.zeroTerminatedSlice taggedByte .nil) (.list []) ∧
      (writePacket 0x52 (.zeroTerminatedSlice taggedByte .nil) (.list []) {}).1 = .error .panic) ∧
    ∃ e', writePacket 0x51 (.basic .string) (.str (List.replicate (2 ^ 32 - 5) 0x61)) {} = (.ok (),e') ∧
      ∀ d : Decoder, d.packetPos = d.packetLength → d.unread = e'.emitted →
        ∃ d', readPacket (fun _ => 2 ^ 48) ((0x51 : UInt8) ≠ 0) 0x51 (.basic .string) d =
          (.ok (.str (List.replicate (2 ^ 32 - 5) 0x61)),d') ∧ d'.packetPos ≠ d'.packetLength := by
  refine ⟨⟨?_,rfl,rfl⟩,⟨?_,rfl⟩,wrapped_length ?_ ?_⟩
  · simp [Schema.WellFormed]
  · simp [Schema.WellFormed]
  · rw [List.mem_replicate]
    decide
  · rw [List.length_replicate,Nat.sub_add_cancel (by decide)]

end Pggat.Fed
