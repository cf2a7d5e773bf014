import Pggat.Fed.Calls

/-! Sequences of calls on a decoder. What they return depends on the stream and not on the reads that deliver it. -/
namespace Pggat.Fed
open Pggat.Base

variable {p : Plain}

theorem Plain.rest_append {bs bytes : List UInt8} (hp : p.bytes = bs ++ bytes)
    (hlen : bs.length ≤ (p.packetLength - p.packetPos).toNat) (hrem : ¬ p.packetLength - p.packetPos < 0) :
    p.bytes.take (p.packetLength - p.packetPos).toNat =
      bs ++ bytes.take (p.packetLength - (p.packetPos + bs.length)).toNat ∧
    (rest p).2 = (rest { p with bytes := bytes, packetPos := p.packetPos + bs.length }).2 := by
  have hrem' : ¬ p.packetLength - (p.packetPos + bs.length) < 0 := by omega
  have hsplit : (p.packetLength - p.packetPos).toNat =
      bs.length + (p.packetLength - (p.packetPos + bs.length)).toNat := by omega
  have htake : p.bytes.take (p.packetLength - p.packetPos).toNat =
      bs ++ bytes.take (p.packetLength - (p.packetPos + bs.length)).toNat := by
    rw [hp,hsplit,List.take_length_add_append]
  have hdrop : p.bytes.drop (p.packetLength - p.packetPos).toNat =
      bytes.drop (p.packetLength - (p.packetPos + bs.length)).toNat := by
    rw [hp,hsplit,List.drop_length_add_append]
  refine ⟨htake,?_⟩
  simp only [rest,if_neg hrem,if_neg hrem',htake,hdrop,List.length_append,Int.natCast_add,Int.add_assoc]

theorem Plain.rest_empty (hp : p.bytes = []) (hrem : ¬ p.packetLength - p.packetPos < 0) :
    (rest p).2 = p := by
  obtain ⟨bytes,type,length,pos⟩ := p
  cases hp
  simp only [rest,if_neg hrem,List.take_nil,List.drop_nil,List.length_nil,Int.natCast_zero,Int.add_zero]

namespace BufferedDecoder

/-- `Read` until it reports the end. The caller picks each of its buffers after what the earlier reads returned. -/
def readAllLoop (rooms : List (List UInt8) → Nat) : (fuel : Nat) → (got : List (List UInt8)) → BufferedM (List UInt8)
  | 0, _ => fun d => (.error .hang,d)
  | fuel+1, got => fun d =>
    match d.readRest (max 1 (rooms got)) with
    | (.error f,d) => (.error f,d)
    | (.ok (bs,some _),d) => (.ok (got ++ [bs]).flatten,d)
    | (.ok (bs,none),d) => readAllLoop rooms fuel (got ++ [bs]) d

/-- Each read returns a byte of the packet or the end. -/
def readAll (rooms : List (List UInt8) → Nat) : BufferedM (List UInt8) := fun d =>
  readAllLoop rooms ((d.packetLength - d.packetPos).toNat + 1) [] d

variable {d : BufferedDecoder} {n : Nat}

theorem readRest_took (h : d.Wf) (hn : 0 < n) (hrem : 0 < d.packetLength - d.packetPos) :
    ∃ bs e d', d.readRest n = (.ok (bs,e),{ d' with packetPos := d'.packetPos + bs.length }) ∧
      Took (min n (d.packetLength - d.packetPos).toNat) d bs e d' := by
  obtain ⟨bs,e,d',hr,htook⟩ := read_took h (show 0 < min n (d.packetLength - d.packetPos).toNat by omega)
  refine ⟨bs,e,d',?_,htook⟩
  have hne : ¬ d.packetLength - d.packetPos = 0 := by omega
  have hpos : ¬ d.packetLength - d.packetPos < 0 := by omega
  simp only [readRest,if_neg hne,if_neg hpos,hr]

theorem readRest_keeps (h : d.Wf) (hn : 0 < n) :
    (d.readRest n).2.Wf ∧ (d.readRest n).2.reader.joined = d.reader.joined := by
  by_cases hrem : 0 < d.packetLength - d.packetPos
  · obtain ⟨bs,e,d',hr,htook⟩ := readRest_took h hn hrem
    rw [hr]
    exact ⟨htook.wf.packet _ _ _,htook.joined⟩
  · simp only [readRest]
    by_cases hzero : d.packetLength - d.packetPos = 0
    · rw [if_pos hzero]
      exact ⟨h,rfl⟩
    · rw [if_neg hzero,if_pos (show d.packetLength - d.packetPos < 0 by omega)]
      exact ⟨h,rfl⟩

theorem readAllLoop_keeps (rooms : List (List UInt8) → Nat) (fuel : Nat) (got : List (List UInt8))
    (h : d.Wf) : (readAllLoop rooms fuel got d).2.Wf ∧
      (readAllLoop rooms fuel got d).2.reader.joined = d.reader.joined := by
  induction fuel generalizing got d with
  | zero => exact ⟨h,rfl⟩
  | succ fuel ih =>
    have hkeeps := readRest_keeps h (show 0 < max 1 (rooms got) by omega)
    simp only [readAllLoop]
    rcases hr : d.readRest (max 1 (rooms got)) with ⟨_ | ⟨bs,_ | e⟩,d'⟩
    · rw [hr] at hkeeps
      exact hkeeps
    · rw [hr] at hkeeps
      obtain ⟨hw,hj⟩ := ih (got ++ [bs]) hkeeps.1
      exact ⟨hw,hj.trans hkeeps.2⟩
    · rw [hr] at hkeeps
      exact hkeeps

private theorem readRest_parse (h : d.Wf) (hn : 0 < n) (hrem : 0 < d.packetLength - d.packetPos) :
    ∃ bs e d', d.readRest n = (.ok (bs,e),d') ∧ d'.packetLength - d'.packetPos = d.packetLength - d.packetPos - bs.length ∧
      (bs.length : Int) ≤ d.packetLength - d.packetPos ∧
      d.plain.bytes.take (d.packetLength - d.packetPos).toNat =
        bs ++ d'.plain.bytes.take (d'.packetLength - d'.packetPos).toNat ∧
      (Plain.rest d.plain).2 = (Plain.rest d'.plain).2 ∧ (e = none → bs ≠ []) ∧
      (e ≠ none → d.reader.joined = false → bs = [] ∧ d'.plain.bytes = []) := by
  obtain ⟨bs,e,d₁,hr,htook⟩ := readRest_took h hn hrem
  have hplain := htook.plain
  have htype : d.packetType = d₁.packetType := congrArg Plain.packetType hplain
  have hlength : d.packetLength = d₁.packetLength := congrArg Plain.packetLength hplain
  have hpos : d.packetPos = d₁.packetPos := congrArg Plain.packetPos hplain
  have hbytes : d.plain.bytes = bs ++ d₁.plain.bytes := congrArg Plain.bytes hplain
  have hle := htook.length
  obtain ⟨htake,hrest⟩ := Plain.rest_append hbytes (show bs.length ≤ (d.packetLength - d.packetPos).toNat by omega)
    (show ¬ d.packetLength - d.packetPos < 0 by omega)
  refine ⟨bs,e,_,hr,?_,?_,?_,?_,htook.progress,htook.ends⟩
  · simp only [hlength,hpos]
    omega
  · omega
  · rw [htake]
    simp only [hlength,hpos]
    rfl
  · rw [hrest]
    simp only [plain,htype,hlength,hpos]
    rfl

/-- Reading to completion takes the rest of the packet off the stream, whatever the reads return. -/
theorem readAllLoop_parse (rooms : List (List UInt8) → Nat) (fuel : Nat) (got : List (List UInt8))
    (h : d.Wf) (hj : d.reader.joined = false) (hrem : ¬ d.packetLength - d.packetPos < 0)
    (hf : (d.packetLength - d.packetPos).toNat + 1 ≤ fuel) : ∃ d',
      readAllLoop rooms fuel got d =
        (.ok (got.flatten ++ d.plain.bytes.take (d.packetLength - d.packetPos).toNat),d') ∧
      (Plain.rest d.plain).2 = d'.plain := by
  induction fuel generalizing got d with
  | zero => omega
  | succ fuel ih =>
    simp only [readAllLoop]
    by_cases hzero : d.packetLength - d.packetPos = 0
    · refine ⟨d,?_,?_⟩
      · simp [readRest,hzero]
      · simp [Plain.rest,hzero]
    · have hn : 0 < max 1 (rooms got) := by omega
      obtain ⟨bs,e,d',hr,hrem',hle,htake,hrest,hsome,hend⟩ := readRest_parse h hn (by omega)
      obtain ⟨hw',hj'⟩ : d'.Wf ∧ d'.reader.joined = d.reader.joined := by
        have hkeeps := readRest_keeps h hn
        rw [hr] at hkeeps
        exact hkeeps
      rw [hr,htake,hrest]
      cases e with
      | some e =>
        obtain ⟨hnil,hempty⟩ := hend (by simp) hj
        refine ⟨d',?_,?_⟩
        · rw [hnil,hempty,List.take_nil]
          simp
        · exact Plain.rest_empty hempty (show ¬ d'.packetLength - d'.packetPos < 0 by omega)
      | none =>
        have hpos := List.length_pos_iff.mpr (hsome rfl)
        obtain ⟨d'',hloop,hrest'⟩ := ih (got ++ [bs]) hw' (hj'.trans hj) (by omega) (by omega)
        refine ⟨d'',?_,hrest'⟩
        simp only [hloop,List.flatten_append,List.flatten_singleton,List.append_assoc]

theorem readAll_parse (rooms : List (List UInt8) → Nat) (h : d.Wf) (hj : d.reader.joined = false) :
    (readAll rooms d).2.Wf ∧ (readAll rooms d).2.reader.joined = false ∧
      Plain.rest d.plain = ((readAll rooms d).1,(readAll rooms d).2.plain) := by
  obtain ⟨hw,hj'⟩ := readAllLoop_keeps rooms ((d.packetLength - d.packetPos).toNat + 1) [] h
  refine ⟨hw,hj'.trans hj,?_⟩
  by_cases hrem : d.packetLength - d.packetPos < 0
  · have hzero : ¬ d.packetLength - d.packetPos = 0 := by omega
    simp only [readAll,readAllLoop,readRest,Plain.rest,if_neg hzero,if_pos hrem]
  · obtain ⟨d',hloop,hrest⟩ := readAllLoop_parse rooms _ [] h hj hrem (Nat.le_refl _)
    rw [show readAll rooms d = _ from hloop,← hrest]
    simp only [Plain.rest,if_neg hrem]
    rfl

/-- What a user of a decoder may do: one of its calls, or to read the rest of the packet. -/
inductive Op where
  | call (c : Call)
  | readAll (rooms : List (List UInt8) → Nat)

def Op.run : Op → BufferedM Returned
  | .call c => c.run
  | .readAll rooms => .bytes <$> BufferedDecoder.readAll rooms

def Op.parse : Op → PlainM Returned
  | .call c => c.parse
  | .readAll _ => .bytes <$> Plain.rest

/-- What a user sees of one step: what it returned, then `Type`, `Length` and `Position`. -/
structure Seen where
  result : Except Failure Returned
  type : UInt8
  length : Int
  position : Int

/-- The steps of a user, with the decoder after each of them. -/
def trace : List Op → BufferedDecoder → List (Except Failure Returned × BufferedDecoder)
  | [], _ => []
  | op :: ops, d => op.run d :: trace ops (op.run d).2

def seen (step : Except Failure Returned × BufferedDecoder) : Seen :=
  ⟨step.1,step.2.packetType,step.2.packetLength,step.2.packetPos⟩

def parsed : List Op → Plain → List Seen
  | [], _ => []
  | op :: ops, p =>
    let (r,p) := op.parse p
    ⟨r,p.packetType,p.packetLength,p.packetPos⟩ :: parsed ops p

theorem Op.run_keeps (op : Op) (h : d.Wf) :
    (op.run d).2.Wf ∧ (op.run d).2.reader.joined = d.reader.joined := by
  cases op with
  | call c => exact ⟨(c.run_follows h).wf,(c.run_follows h).joined⟩
  | readAll rooms =>
    simp only [Op.run,Action.map_apply]
    exact readAllLoop_keeps rooms _ [] h

private theorem Op.run_parse (op : Op) (h : d.Wf) (hj : d.reader.joined = false) :
    (op.run d).2.Wf ∧ (op.run d).2.reader.joined = false ∧ op.parse d.plain = ((op.run d).1,(op.run d).2.plain) := by
  cases op with
  | call c => exact BufferedDecoder.run_parse c h hj
  | readAll rooms =>
    obtain ⟨hw,hj',hparse⟩ := readAll_parse rooms h hj
    simp only [Op.run,Op.parse,Action.map_apply,hparse]
    exact ⟨hw,hj',trivial⟩

private theorem trace_parsed (ops : List Op) (h : d.Wf) (hj : d.reader.joined = false) :
    (trace ops d).map seen = parsed ops d.plain ∧ ∀ step ∈ trace ops d, step.2.Wf := by
  induction ops generalizing d with
  | nil => exact ⟨rfl,by simp [trace]⟩
  | cons op ops ih =>
    obtain ⟨hw,hj',hparse⟩ := op.run_parse h hj
    obtain ⟨hseen,hall⟩ := ih hw hj'
    refine ⟨?_,?_⟩
    · simp only [trace,parsed,List.map_cons,hparse,hseen]
      rfl
    · intro step hstep
      rcases List.mem_cons.mp hstep with rfl | hstep
      · exact hw
      · exact hall step hstep

/-- A decoder shows the plain parse of its stream, however the reader cuts it, and keeps its cursors in order. -/
theorem chunking_invisible (ops : List Op) (stream : List UInt8) (sizes sizes' : Nat → Nat) :
    (trace ops (new { stream, sizes })).map seen = parsed ops { bytes := stream } ∧
    (trace ops (new { stream, sizes })).map seen =
      (trace ops (new { stream, sizes := sizes' })).map seen ∧
    ∀ step ∈ trace ops (new { stream, sizes }),
      step.2.bufferRead ≤ step.2.bufferWrite ∧ step.2.bufferWrite ≤ defaultBufferSize ∧
      (step.2.bufferRead = step.2.bufferWrite → step.2.bufferRead = 0 ∧ step.2.bufferWrite = 0) := by
  obtain ⟨hseen,hwf⟩ := trace_parsed ops (Wf.new { stream, sizes }) rfl
  obtain ⟨hseen',-⟩ := trace_parsed ops (Wf.new { stream, sizes := sizes' }) rfl
  refine ⟨hseen,hseen.trans hseen'.symm,fun step hstep => ?_⟩
  have hw := hwf step hstep
  exact ⟨hw.read_le,hw.write_le,fun he => ⟨he.trans (hw.meet he),hw.meet he⟩⟩

end BufferedDecoder
end Pggat.Fed
