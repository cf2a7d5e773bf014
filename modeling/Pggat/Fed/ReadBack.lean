import Pggat.Fed.Consumption
import Pggat.Fed.EncodeSpec

/-! Reading the bytes of a well formed value gives the value back and stops right behind them. -/
namespace Pggat.Fed
open Pggat.Base

section Limit
variable (limit : Schema → Nat)

/-- The bytes `bs` read as `a`, all demands are met, and nothing behind them is looked at. When the reading
is the last of its packet it may rely on the packet ending with `bs`. -/
def ReadsAs {α : Type} (last : Bool) (r : Reading α) (bs : List UInt8) (a : α) : Prop :=
  ∀ (rest : List UInt8) (left : Int), (last = true → left = bs.length) →
    ∃ ds, r ⟨bs ++ rest,left⟩ = (ds,some (a,⟨rest,left - bs.length⟩)) ∧ ∀ x ∈ ds, x.Met limit

namespace ReadsAs
variable {limit} {α β : Type} {last : Bool}

theorem pure (a : α) : ReadsAs limit last (Pure.pure a) [] a := by
  intro rest left _
  exact ⟨[],by simp [Pure.pure],by simp⟩

variable {r : Reading α} {bs : List UInt8} {a : α}

theorem weaken (h : ReadsAs limit false r bs a) : ReadsAs limit last r bs a := by
  intro rest left _
  exact h rest left (by simp)

theorem bind {f : α → Reading β} {bs' : List UInt8} {b : β} (h : ReadsAs limit false r bs a)
    (h' : ReadsAs limit last (f a) bs' b) : ReadsAs limit last (r >>= f) (bs ++ bs') b := by
  intro rest left hlast
  obtain ⟨ds,hr,hds⟩ := h (bs' ++ rest) left (by simp)
  obtain ⟨ds',hr',hds'⟩ := h' rest (left - bs.length) (fun hl => by
    rw [hlast hl,List.length_append]
    push_cast
    omega)
  refine ⟨ds ++ ds',?_,fun x hx => (List.mem_append.mp hx).elim (hds x) (hds' x)⟩
  rw [Reading.bind_some (by rw [List.append_assoc]; exact hr),hr',List.length_append]
  push_cast
  rw [Int.sub_sub]

theorem map {f : α → β} (h : ReadsAs limit last r bs a) :
    ReadsAs limit last (r >>= fun a => Pure.pure (f a)) bs (f a) := by
  intro rest left hlast
  obtain ⟨ds,hr,hds⟩ := h rest left hlast
  exact ⟨ds ++ [],Reading.bind_some hr,by simpa using hds⟩

variable {n : Nat}

theorem number {w : Nat} (hn : n < 256 ^ w) : ReadsAs limit last (Reading.number w) (beBytes w n) n := by
  intro rest left _
  refine ⟨[],?_,by simp⟩
  have hlen : (beBytes w n).length = w := length_beBytes w n
  have htake : (beBytes w n ++ rest).take w = beBytes w n := List.take_left' hlen
  have hdrop : (beBytes w n ++ rest).drop w = rest := List.drop_left' hlen
  rw [Reading.number,if_pos (by simp),htake,hdrop,beNat_beBytes,Nat.mod_eq_of_lt hn,hlen]

variable {s : GoString}

theorem text (h : 0 ∉ s) : ReadsAs limit last Reading.text (s ++ [0]) s := by
  intro rest left _
  refine ⟨[],?_,by simp⟩
  rw [Reading.text,List.append_assoc,List.singleton_append]
  simp only [Decoder.cutZero_eq_some.mpr ⟨rfl,h⟩]
  simp

theorem announce {elem : Schema} (h : n ≤ limit elem) :
    ReadsAs limit last (Reading.announce elem n) [] () := by
  intro rest left _
  refine ⟨[.slice elem n],?_,?_⟩
  · simp [Reading.announce]
  · simp [Demand.Met,h]

theorem times {bytes : α → List UInt8} {vs : List α} (h : ∀ v ∈ vs, ReadsAs limit false r (bytes v) v) :
    ReadsAs limit last (Reading.times vs.length r) (vs.flatMap bytes) vs := by
  induction vs with
  | nil => exact pure []
  | cons v vs ih =>
    rw [List.flatMap_cons]
    exact (h v (by simp)).bind (ih fun x hx => h x (List.mem_cons_of_mem v hx)).map

private theorem ne_nil {r : Reading Value} {v : Value} (h : ReadsAs limit false r bs v)
    (ht : Takes r (·.isZero = true)) (hv : v.isZero = false) : 0 < bs.length := by
  obtain ⟨ds,hr,_⟩ := h [] 0 (by simp)
  obtain ⟨bs',hbs,_,hzero,_⟩ := ht _ ds v _ hr
  obtain rfl := List.append_cancel_right hbs
  exact List.length_pos_iff.mpr fun hnil => by simp [hzero hnil] at hv

variable {bytes : Value → List UInt8} {vs : List Value} {fuel : Nat}

/-- The elements of a zero terminated slice, each at least one byte long, and its end. -/
theorem untilZero {first : Reading Value} {rest : Reading (List Value)} {zero : Value} {terminator : List UInt8} (ht : Takes first (·.isZero = true))
    (hend : ReadsAs limit false first terminator zero) (hzero : zero.isZero = true)
    (h : ∀ v ∈ vs, ∃ x xs bs bs', v = .list (x :: xs) ∧ bytes v = bs ++ bs' ∧ ReadsAs limit false first bs x ∧
      x.isZero = false ∧ ReadsAs limit false rest bs' xs) (hfuel : (vs.flatMap bytes).length < fuel) :
    ReadsAs limit false (Reading.untilZero fuel first rest) (vs.flatMap bytes ++ terminator) vs := by
  induction vs generalizing fuel with
  | nil =>
    obtain ⟨fuel,rfl⟩ : ∃ k, fuel = k + 1 := ⟨fuel - 1,by omega⟩
    rw [List.flatMap_nil,List.nil_append,← List.append_nil terminator]
    refine hend.bind ?_
    rw [if_pos hzero]
    exact pure []
  | cons v vs ih =>
    obtain ⟨x,xs,bs,bs',rfl,hbytes,hx,hnz,hxs⟩ := h v (by simp)
    have hpos := hx.ne_nil ht hnz
    rw [List.flatMap_cons,List.length_append,hbytes,List.length_append] at hfuel
    obtain ⟨fuel,rfl⟩ : ∃ k, fuel = k + 1 := ⟨fuel - 1,by omega⟩
    have hmore := ih (fun v hv => h v (List.mem_cons_of_mem _ hv)) (show (vs.flatMap bytes).length < fuel by omega)
    rw [List.flatMap_cons,hbytes,List.append_assoc,List.append_assoc]
    refine hx.bind ?_
    rw [if_neg (by simp [hnz])]
    exact hxs.bind hmore.map

/-- The elements of a slice up to the end of the packet, each at least one byte long. -/
theorem untilEnd {elem : Reading Value}
    (h : ∀ v ∈ vs, ReadsAs limit false elem (bytes v) v ∧ 0 < (bytes v).length) (hfuel : (vs.flatMap bytes).length < fuel) :
    ReadsAs limit true (Reading.untilEnd fuel elem) (vs.flatMap bytes) vs := by
  induction vs generalizing fuel with
  | nil =>
    intro rest left hleft
    obtain ⟨fuel,rfl⟩ : ∃ k, fuel = k + 1 := ⟨fuel - 1,by omega⟩
    exact ⟨[],by simpa using Reading.untilEnd_end fuel elem (by simp [hleft rfl]),by simp⟩
  | cons v vs ih =>
    obtain ⟨hv,hpos⟩ := h v (by simp)
    rw [List.flatMap_cons,List.length_append] at hfuel
    obtain ⟨fuel,rfl⟩ : ∃ k, fuel = k + 1 := ⟨fuel - 1,by omega⟩
    have hmore := ih (fun v hv => h v (List.mem_cons_of_mem _ hv)) (show (vs.flatMap bytes).length < fuel by omega)
    have hturn : ReadsAs limit true (do
        let v ← elem
        let vs ← Reading.untilEnd fuel elem
        Pure.pure (v :: vs)) (bytes v ++ vs.flatMap bytes) (v :: vs) := hv.bind hmore.map
    intro rest left hleft
    obtain ⟨ds,hr,hds⟩ := hturn rest left hleft
    refine ⟨ds,(Reading.untilEnd_turn fuel elem ?_).trans hr,hds⟩
    rw [hleft rfl,List.flatMap_cons,List.length_append]
    push_cast
    omega

end ReadsAs

variable {limit}

mutual

theorem Schema.bytes_pos : ∀ (s : Schema) (last : Bool) (v : Value), s.Regular last → s.Wide → s.WellFormed limit v →
    0 < (s.bytes v).length
  | .basic (.int t), _, .int n, _, _, _ => by simp [Schema.bytes,t.bytes_pos]
  | .basic .float32, _, .float _ n, _, _, _ => by simp [Schema.bytes]
  | .basic .float64, _, .float _ n, _, _, _ => by simp [Schema.bytes]
  | .basic .string, _, .str s, _, _, _ => by simp [Schema.bytes]
  | .array n elem, _, .list [], _, hwide, hw => absurd hw.1 hwide.1.ne
  | .array n elem, _, .list (v :: vs), hr, hwide, hw => by
    have hv := elem.bytes_pos false v hr hwide.2 (hw.2 v (by simp))
    simp only [Schema.bytes,List.flatMap_cons,List.length_append]
    omega
  | .struct fields, last, .list vs, hr, hwide, hw => fields.bytes_pos last vs hr hwide hw
  | .map pre items, _, .item type v, _, _, _ => by
    have := pre.bytes_pos
    simp only [Schema.bytes,List.length_append,length_beBytes]
    omega
  | .lengthPrefixedSlice pre elem, _, .list vs, _, _, _ => by
    have := pre.bytes_pos
    simp only [Schema.bytes,List.length_append,length_beBytes]
    omega
  | .nullableLengthPrefixedSlice pre elem, _, .null, _, _, _ => by simp [Schema.bytes,pre.bytes_pos]
  | .nullableLengthPrefixedSlice pre elem, _, .list vs, _, _, _ => by
    have := pre.bytes_pos
    simp only [Schema.bytes,List.length_append,length_beBytes]
    omega
  | .zeroTerminatedSlice first rest, _, .list vs, hr, hwide, _ => by
    have := first.bytes_pos false first.zero hr.2.1 hwide (first.zero_spec limit hr.1).1
    simp only [Schema.bytes,List.length_append]
    omega

theorem Fields.bytes_pos : ∀ (fields : Fields) (last : Bool) (vs : List Value), fields.Regular last → fields.Wide →
    fields.WellFormed limit vs → 0 < (fields.bytes vs).length
  | .cons field fields, last, v :: vs, hr, hwide, hw => by
    obtain ⟨last',hhead⟩ := hr.head
    simp only [Fields.bytes,List.length_append]
    rcases hwide with hwide | hwide
    · have := field.bytes_pos last' v hhead hwide hw.1
      omega
    · have := fields.bytes_pos last vs hr.tail hwide hw.2
      omega

end

mutual

theorem Schema.reads_bytes : ∀ (s : Schema) (last : Bool) (v : Value), s.Regular last → s.WellFormed limit v →
    ReadsAs limit last s.read (s.bytes v) v
  | .basic (.int t), _, .int n, _, hw => (ReadsAs.number hw).map
  | .basic .float32, _, .float _ n, _, ⟨rfl,hn⟩ => (ReadsAs.number hn).map
  | .basic .float64, _, .float _ n, _, ⟨rfl,hn⟩ => (ReadsAs.number hn).map
  | .basic .string, _, .str s, _, hw => (ReadsAs.text hw).map
  | .array _ elem, _, .list vs, hr, ⟨rfl,hw⟩ =>
    (ReadsAs.times fun v hv => elem.reads_bytes false v hr (hw v hv)).map
  | .struct fields, last, .list vs, hr, hw => (fields.reads_bytes last vs hr hw).map
  | .map pre items, last, .item type v, hr, hw => by
    have hitem := (items.reads_bytes type last v hr hw.2).map (f := fun v => Value.item type v)
    refine (ReadsAs.number (pre.ofInt_lt type)).bind ?_
    simp only [IntType.value_ofInt hw.1]
    exact hitem
  | .lengthPrefixedSlice pre elem, last, .list vs, hr, hw => by
    have hvs : ReadsAs limit last (Reading.times vs.length elem.read) (vs.flatMap fun v => elem.bytes v) vs :=
      .times fun v hv => elem.reads_bytes false v hr (hw.2 v hv)
    refine (ReadsAs.number (pre.ofInt_lt vs.length)).bind ?_
    simp only [IntType.toInt_ofInt hw.1.fits hw.1.int]
    exact (ReadsAs.announce hw.1.held).bind hvs.map
  | .nullableLengthPrefixedSlice pre elem, last, .null, hr, hw => by
    rw [Schema.bytes,← List.append_nil (beBytes _ _)]
    refine (ReadsAs.number (pre.ofInt_lt (-1))).bind ?_
    simp only [IntType.value_ofInt hw,if_true]
    exact ReadsAs.pure Value.null
  | .nullableLengthPrefixedSlice pre elem, last, .list vs, hr, hw => by
    have hvs : ReadsAs limit last (Reading.times vs.length elem.read) (vs.flatMap fun v => elem.bytes v) vs :=
      .times fun v hv => elem.reads_bytes false v hr (hw.2 v hv)
    have hlen : ¬ (vs.length : Int) = -1 := by omega
    refine (ReadsAs.number (pre.ofInt_lt vs.length)).bind ?_
    simp only [IntType.value_ofInt hw.1.fits,if_neg hlen,IntType.toInt_ofInt hw.1.fits hw.1.int]
    exact (ReadsAs.announce hw.1.held).bind hvs.map
  | .zeroTerminatedSlice first rest, last, .list vs, hr, hw => by
    obtain ⟨hzero,hisZero⟩ := first.zero_spec limit hr.1
    have hend := first.reads_bytes false first.zero hr.2.1 hzero
    intro left more hleft
    refine ((ReadsAs.untilZero first.read_takes hend hisZero (fun v hv => ?_) ?_).map (f := Value.list)).weaken left more hleft
    · obtain ⟨x,xs,rfl,hx,hnz,hxs⟩ := hw v hv
      exact ⟨x,xs,_,_,rfl,rfl,first.reads_bytes false x hr.2.1 hx,hnz,rest.reads_bytes false xs hr.2.2 hxs⟩
    · simp only [Schema.bytes,List.length_append]
      omega
  | .remaining elem, last, .list vs, hr, hw => by
    obtain ⟨rfl,hwide,hr⟩ := hr
    intro left more hleft
    refine (ReadsAs.untilEnd (fun v hv => ⟨elem.reads_bytes false v hr (hw v hv),
      elem.bytes_pos false v hr hwide (hw v hv)⟩) ?_).map (f := Value.list) left more hleft
    exact Nat.lt_succ_of_le (by simp [Schema.bytes])

theorem Fields.reads_bytes : ∀ (fields : Fields) (last : Bool) (vs : List Value), fields.Regular last →
    fields.WellFormed limit vs → ReadsAs limit last fields.read (fields.bytes vs) vs
  | .nil, _, [], _, _ => .pure []
  | .cons field .nil, last, [v], hr, hw => by
    show ReadsAs limit last _ (field.bytes v ++ []) [v]
    rw [List.append_nil]
    exact (field.reads_bytes last v hr hw.1).map (f := fun v => [v])
  | .cons field (.cons field' fields), last, v :: vs, hr, hw =>
    (field.reads_bytes false v hr.1 hw.1).bind ((Fields.cons field' fields).reads_bytes last vs hr.2 hw.2).map

theorem Items.reads_bytes (type : Int) : ∀ (items : Items) (last : Bool) (v : Value), items.Regular last →
    items.WellFormed limit type v → ReadsAs limit last (items.read type) (items.bytes type v) v
  | .cons t item items, last, v, hr, hw => by
    unfold Items.read Items.bytes
    unfold Items.WellFormed at hw
    split
    · rename_i ht
      rw [if_pos ht] at hw
      exact item.reads_bytes last v hr.1 hw
    · rename_i ht
      rw [if_neg ht] at hw
      exact items.reads_bytes type last v hr.2 hw

end

end Limit
end Pggat.Fed
