import Mathlib.Data.List.Forall2
import Pggat.Fed.Wire

/-! What a reading takes off the front, which decides alone what it does. One that takes nothing yields a zero value, so
only a slice up to the end of the packet can loop without taking bytes. -/
namespace Pggat.Fed
open Pggat.Base

/-- A reading that succeeds takes bytes that spell its value, and does the same whatever follows them. -/
def Spells {α : Type} (r : Reading α) (P : α → List UInt8 → Prop) : Prop :=
  ∀ w ds a w', r w = (ds,some (a,w')) → ∃ bs, w.bytes = bs ++ w'.bytes ∧ w'.left = w.left - bs.length ∧ P a bs ∧
    ∀ c, r ⟨bs ++ c,w.left⟩ = (ds,some (a,⟨c,w'.left⟩))

/-- The same of a loop, for which one more turn than it takes bytes is enough fuel. -/
def Loops {α : Type} (m : Nat → Reading α) (P : α → List UInt8 → Prop) : Prop :=
  ∀ fuel w ds a w', m fuel w = (ds,some (a,w')) → ∃ bs, w.bytes = bs ++ w'.bytes ∧ w'.left = w.left - bs.length ∧ P a bs ∧
    ∀ c fuel', bs.length < fuel' → m fuel' ⟨bs ++ c,w.left⟩ = (ds,some (a,⟨c,w'.left⟩))

/-- `P` holds of what a reading yields without taking bytes. -/
abbrev Takes {α : Type} (r : Reading α) (P : α → Prop) : Prop := Spells r fun a bs => bs = [] → P a

theorem Reading.bind_inv {α β : Type} {r : Reading α} {f : α → Reading β} {w w' : Wire} {ds : List Demand} {b : β}
    (h : (r >>= f) w = (ds,some (b,w'))) :
    ∃ ds₁ a w₁ ds₂, ds = ds₁ ++ ds₂ ∧ r w = (ds₁,some (a,w₁)) ∧ f a w₁ = (ds₂,some (b,w')) := by
  rcases hr : r w with ⟨ds₁,_ | ⟨a,w₁⟩⟩
  · rw [bind_none hr] at h
    cases h
  · rw [bind_some hr] at h
    exact ⟨ds₁,a,w₁,(f a w₁).1,(Prod.mk.inj h).1.symm,rfl,Prod.ext rfl (Prod.mk.inj h).2⟩

theorem IntType.bytes_pos (t : IntType) : 0 < t.bytes := by cases t <;> decide

namespace Spells
variable {α β : Type} {r : Reading α} {P : α → List UInt8 → Prop}

theorem pure {a : α} (h : P a []) : Spells (Pure.pure a) P := by
  intro w ds b w' hr
  cases hr
  exact ⟨[],rfl,by simp,h,fun _ => rfl⟩

theorem stop (ds : List Demand) : Spells (Reading.stop ds) P := by
  intro w ds b w' hr
  cases hr

theorem mono {Q : α → List UInt8 → Prop} (h : Spells r P) (hPQ : ∀ a bs, P a bs → Q a bs) : Spells r Q := by
  intro w ds a w' hr
  obtain ⟨bs,hw,hl,hP,hs⟩ := h w ds a w' hr
  exact ⟨bs,hw,hl,hPQ a bs hP,hs⟩

variable {Q : β → List UInt8 → Prop}

theorem bind {f : α → Reading β} (h : Spells r P)
    (hf : ∀ a bs, P a bs → Spells (f a) fun b bs' => Q b (bs ++ bs')) : Spells (r >>= f) Q := by
  intro w ds b w' hr
  obtain ⟨ds₁,a,w₁,ds₂,rfl,h₁,h₂⟩ := Reading.bind_inv hr
  obtain ⟨bs,hw,hl,hP,hs⟩ := h w _ a w₁ h₁
  obtain ⟨bs',hw',hl',hQ,hs'⟩ := hf a bs hP w₁ _ b w' h₂
  refine ⟨bs ++ bs',by rw [hw,hw',List.append_assoc],?_,hQ,fun c => ?_⟩
  · rw [hl',hl,List.length_append]
    push_cast
    omega
  · rw [List.append_assoc,Reading.bind_some (hs (bs' ++ c)),hs' c]

theorem map {f : α → β} (h : Spells r P) (hQ : ∀ a bs, P a bs → Q (f a) bs) :
    Spells (r >>= fun a => Pure.pure (f a)) Q :=
  h.bind fun a bs hP => pure (by rw [List.append_nil]; exact hQ a bs hP)

theorem and {Q : α → List UInt8 → Prop} (h : Spells r P) (h' : Spells r Q) : Spells r fun a bs => P a bs ∧ Q a bs := by
  intro w ds a w' hr
  obtain ⟨bs,hw,hl,hP,hs⟩ := h w ds a w' hr
  obtain ⟨bs',hw',-,hQ,-⟩ := h' w ds a w' hr
  obtain rfl := List.append_cancel_right (hw.symm.trans hw')
  exact ⟨bs,hw,hl,⟨hP,hQ⟩,hs⟩

theorem number (n : Nat) : Spells (Reading.number n) fun v bs => bs = beBytes n v ∧ v < 256 ^ n := by
  intro w ds v w' hr
  unfold Reading.number at hr
  split at hr
  · rename_i hn
    cases hr
    have hlen : (w.bytes.take n).length = n := List.length_take_of_le hn
    have hbytes := beBytes_beNat (w.bytes.take n)
    have hlt := beNat_lt (w.bytes.take n)
    rw [hlen] at hbytes hlt
    refine ⟨w.bytes.take n,(List.take_append_drop n w.bytes).symm,by rw [hlen],⟨hbytes.symm,hlt⟩,fun c => ?_⟩
    have hle : n ≤ (w.bytes.take n ++ c).length := by
      rw [List.length_append,hlen]
      exact Nat.le_add_right _ _
    rw [Reading.number,if_pos hle,List.take_left' hlen,List.drop_left' hlen]
  · cases hr

theorem text : Spells Reading.text fun s bs => bs = s ++ [0] := by
  intro w ds s w' hr
  unfold Reading.text at hr
  split at hr
  · rename_i s' rest hc
    cases hr
    obtain ⟨hw,hs⟩ := Decoder.cutZero_eq_some.mp hc
    refine ⟨s ++ [0],by rw [hw]; simp,by simp,rfl,fun c => ?_⟩
    have hcut : Decoder.cutZero (s ++ [0] ++ c) = some (s,c) := Decoder.cutZero_eq_some.mpr ⟨by simp,hs⟩
    rw [Reading.text]
    simp only [hcut]
  · cases hr

theorem announce (elem : Schema) (n : Int) : Spells (Reading.announce elem n) fun _ bs => bs = [] ∧ 0 ≤ n := by
  intro w ds u w' hr
  unfold Reading.announce at hr
  split at hr
  · cases hr
  · rename_i hn
    cases hr
    exact ⟨[],rfl,by simp,⟨rfl,by omega⟩,fun c => by rw [Reading.announce,if_neg hn]; rfl⟩

theorem times (h : Spells r P) (n : Nat) : Spells (Reading.times n r) fun vs bs =>
    vs.length = n ∧ ∃ bss, List.Forall₂ P vs bss ∧ bs = bss.flatten := by
  induction n with
  | zero => exact pure ⟨rfl,[],.nil,rfl⟩
  | succ n ih =>
    refine h.bind fun v bs hv => ih.map fun vs bs' hvs => ?_
    obtain ⟨hlen,bss,hall,rfl⟩ := hvs
    exact ⟨by rw [List.length_cons,hlen],bs :: bss,.cons hv hall,rfl⟩

/-- An element of a zero terminated slice. -/
def Element (P : Value → List UInt8 → Prop) (Q : List Value → List UInt8 → Prop) (v : Value) (bs : List UInt8) : Prop :=
  ∃ x xs b b', v = .list (x :: xs) ∧ bs = b ++ b' ∧ P x b ∧ Q xs b' ∧ ¬ x.isZero = true

theorem untilZero {first : Reading Value} {rest : Reading (List Value)} {P : Value → List UInt8 → Prop}
    {Q : List Value → List UInt8 → Prop} (hfirst : Spells first P) (hrest : Spells rest Q)
    (hzero : ∀ v, P v [] → v.isZero = true) : Loops (fun fuel => Reading.untilZero fuel first rest)
      fun vs bs => ∃ bss z terminator, List.Forall₂ (Element P Q) vs bss ∧ bs = bss.flatten ++ terminator ∧
        P z terminator ∧ z.isZero = true := by
  intro fuel
  induction fuel with
  | zero =>
    intro w ds vs w' hr
    cases hr
  | succ fuel ih =>
    intro w ds vs w' hr
    obtain ⟨ds₁,v,w₁,ds₂,rfl,h₁,hr⟩ := Reading.bind_inv hr
    obtain ⟨b,hw,hl,hP,hs⟩ := hfirst w _ v w₁ h₁
    by_cases hv : v.isZero = true
    · rw [if_pos hv] at hr
      cases hr
      refine ⟨b,hw,hl,⟨[],v,b,.nil,rfl,hP,hv⟩,fun c fuel' hf => ?_⟩
      obtain ⟨fuel',rfl⟩ := Nat.exists_eq_succ_of_ne_zero (Nat.ne_zero_of_lt hf)
      simp only [Reading.untilZero]
      rw [Reading.bind_some (hs c),if_pos hv]
      rfl
    · rw [if_neg hv] at hr
      obtain ⟨ds₃,xs,w₂,ds₄,rfl,h₂,hr⟩ := Reading.bind_inv hr
      obtain ⟨ds₅,more,w₃,ds₆,rfl,h₃,hr⟩ := Reading.bind_inv hr
      cases hr
      obtain ⟨b',hw',hl',hQ,hs'⟩ := hrest w₁ _ xs w₂ h₂
      obtain ⟨bs,hw'',hl'',⟨bss,z,t,hall,rfl,hz⟩,hs''⟩ := ih w₂ _ more w' h₃
      refine ⟨b ++ (b' ++ (bss.flatten ++ t)),by rw [hw,hw',hw'']; simp,?_,
        ⟨(b ++ b') :: bss,z,t,.cons ⟨v,xs,b,b',rfl,rfl,hP,hQ,hv⟩ hall,by simp,hz⟩,fun c fuel' hf => ?_⟩
      · rw [hl'',hl',hl]
        simp only [List.length_append]
        omega
      · have hpos : 0 < b.length := List.length_pos_iff.mpr fun hnil => hv (hzero v (hnil ▸ hP))
        obtain ⟨fuel',rfl⟩ := Nat.exists_eq_succ_of_ne_zero (Nat.ne_zero_of_lt hf)
        have hf' : (bss.flatten ++ t).length < fuel' := by
          rw [List.length_append,@List.length_append _ b'] at hf
          omega
        simp only [Reading.untilZero,List.append_assoc] at hs'' ⊢
        rw [Reading.bind_some (hs _),if_neg hv,Reading.bind_some (hs' _),Reading.bind_some (hs'' c fuel' hf')]
        rfl

/-- An element that takes nothing is followed by itself, and the loop has no end. -/
theorem untilEnd_stuck {elem : Reading Value} {w : Wire} {ds : List Demand} {v : Value}
    (h : elem w = (ds,some (v,w))) (hleft : ¬ w.left ≤ 0) (fuel : Nat) : (Reading.untilEnd fuel elem w).2 = none := by
  induction fuel with
  | zero => rfl
  | succ fuel ih =>
    rw [Reading.untilEnd_turn fuel elem hleft,Reading.bind_some h,Reading.bind_none (Prod.ext rfl ih)]

theorem untilEnd {elem : Reading Value} {P : Value → List UInt8 → Prop} (h : Spells elem P) :
    Loops (fun fuel => Reading.untilEnd fuel elem) fun vs bs => ∃ bss, List.Forall₂ P vs bss ∧ bs = bss.flatten := by
  intro fuel
  induction fuel with
  | zero =>
    intro w ds vs w' hr
    cases hr
  | succ fuel ih =>
    intro w ds vs w' hr
    simp only at ih hr ⊢
    by_cases hleft : w.left ≤ 0
    · rw [Reading.untilEnd_end fuel elem hleft] at hr
      cases hr
      refine ⟨[],rfl,by simp,⟨[],.nil,rfl⟩,fun c fuel' hf => ?_⟩
      obtain ⟨fuel',rfl⟩ := Nat.exists_eq_succ_of_ne_zero (Nat.ne_zero_of_lt hf)
      exact Reading.untilEnd_end fuel' elem hleft
    · rw [Reading.untilEnd_turn fuel elem hleft] at hr
      obtain ⟨ds₁,v,w₁,ds₂,rfl,h₁,hr⟩ := Reading.bind_inv hr
      obtain ⟨ds₃,more,w₂,ds₄,rfl,h₂,hr⟩ := Reading.bind_inv hr
      cases hr
      obtain ⟨b,hw,hl,hP,hs⟩ := h w _ v w₁ h₁
      obtain ⟨bs,hw',hl',⟨bss,hall,rfl⟩,hs'⟩ := ih w₁ _ more w' h₂
      refine ⟨b ++ bss.flatten,by rw [hw,hw',List.append_assoc],?_,⟨b :: bss,.cons hP hall,rfl⟩,fun c fuel' hf => ?_⟩
      · rw [hl',hl,List.length_append]
        push_cast
        omega
      · have hpos : 0 < b.length := by
          refine List.length_pos_iff.mpr fun hnil => ?_
          obtain rfl : w₁ = w := by
            rw [hnil] at hw hl
            cases w
            cases w₁
            simp_all
          have hstuck := untilEnd_stuck h₁ hleft fuel
          rw [h₂] at hstuck
          cases hstuck
        obtain ⟨fuel',rfl⟩ := Nat.exists_eq_succ_of_ne_zero (Nat.ne_zero_of_lt hf)
        have hf' : bss.flatten.length < fuel' := by
          rw [List.length_append] at hf
          omega
        rw [List.append_assoc]
        refine (Reading.untilEnd_turn fuel' elem (w := ⟨b ++ (bss.flatten ++ c),w.left⟩) hleft).trans ?_
        rw [Reading.bind_some (hs _),Reading.bind_some (hs' c fuel' hf')]
        rfl

/-- Nothing comes without bytes from behind a number. -/
theorem prefixed {R : β → Prop} {f : Nat → Reading β} (t : IntType) (hf : ∀ n, Spells (f n) fun _ _ => True) :
    Takes (Reading.number t.bytes >>= f) R :=
  (number t.bytes).bind fun n bs ⟨hbs,_⟩ => (hf n).mono fun _ _ _ hnil => by
    rw [(List.append_eq_nil_iff.mp hnil).1] at hbs
    have hlen := congrArg List.length hbs
    rw [length_beBytes] at hlen
    exact absurd hlen (Nat.ne_of_lt t.bytes_pos)

theorem slice (h : Spells r P) (elem : Schema) (n : Int) (f : List α → β) :
    Spells (Reading.announce elem n >>= fun _ => Reading.times n.toNat r >>= fun vs => Pure.pure (f vs))
      fun _ _ => True :=
  (announce elem n).bind fun _ _ _ => (h.times _).map fun _ _ _ => trivial

end Spells

theorem Loops.spells {α β : Type} {m : Nat → Reading α} {P : α → List UInt8 → Prop} {Q : β → List UInt8 → Prop} {f : α → β}
    (h : Loops m P) (hQ : ∀ a bs, P a bs → Q (f a) bs) :
    Spells (fun w => (m (w.bytes.length + 1) >>= fun a => Pure.pure (f a)) w) Q := by
  intro w ds b w' hr
  obtain ⟨ds₁,a,w₁,ds₂,rfl,h₁,h₂⟩ := Reading.bind_inv hr
  cases h₂
  obtain ⟨bs,hw,hl,hP,hs⟩ := h _ w _ a w' h₁
  refine ⟨bs,hw,hl,hQ a bs hP,fun c => ?_⟩
  exact Reading.bind_some (hs c _ (by simp only [List.length_append]; omega))

theorem Value.allZero_of_nil {vs : List Value} {bss : List (List UInt8)}
    (h : List.Forall₂ (fun v bs => bs = [] → v.isZero = true) vs bss) (hnil : bss.flatten = []) :
    Value.allZero vs = true := by
  induction h with
  | nil => rfl
  | cons hv _ ih =>
    obtain ⟨hb,hbs⟩ := List.append_eq_nil_iff.mp hnil
    simp [Value.allZero,hv hb,ih hbs]

theorem Basic.read_takes (b : Basic) : Takes b.read (·.isZero = true) := by
  cases b with
  | int t => exact .prefixed t fun n => .pure trivial
  | float32 => exact .prefixed .uint32 fun n => .pure trivial
  | float64 => exact .prefixed .uint64 fun n => .pure trivial
  | string => exact Spells.text.map fun s bs hbs hnil => by simp [hbs] at hnil

mutual

theorem Schema.read_takes : ∀ s : Schema, Takes s.read (·.isZero = true)
  | .basic b => b.read_takes
  | .array n elem => (elem.read_takes.times n).map fun vs bs ⟨_,_,hall,hbs⟩ hnil => Value.allZero_of_nil hall (hbs ▸ hnil)
  | .struct fields => fields.read_takes.map fun _ _ => id
  | .map pre items => .prefixed pre fun n => (items.read_takes (pre.value n)).map fun _ _ _ => trivial
  | .lengthPrefixedSlice pre elem => .prefixed pre fun n => elem.read_takes.slice elem _ _
  | .nullableLengthPrefixedSlice pre elem => .prefixed pre fun n => by
    split
    · exact .pure trivial
    · exact elem.read_takes.slice elem _ _
  | .zeroTerminatedSlice first rest =>
    (first.read_takes.untilZero rest.read_takes fun _ h => h rfl).spells fun vs bs ⟨_,_,_,hall,hbs,_⟩ hnil => by
      rw [hbs,List.append_eq_nil_iff] at hnil
      cases hall with
      | nil => rfl
      | cons hv _ =>
        obtain ⟨x,xs,b,b',rfl,rfl,hx,_,hzero⟩ := hv
        exact absurd (hx (by simp_all)) hzero
  | .remaining elem => elem.read_takes.untilEnd.spells fun vs bs ⟨_,hall,hbs⟩ hnil =>
    Value.allZero_of_nil hall (hbs ▸ hnil)

theorem Fields.read_takes : ∀ fields : Fields, Takes fields.read fun vs => Value.allZero vs = true
  | .nil => .pure fun _ => rfl
  | .cons field fields => field.read_takes.bind fun v bs hv => fields.read_takes.map fun vs bs' hvs hnil => by
    obtain ⟨hb,hb'⟩ := List.append_eq_nil_iff.mp hnil
    simp [Value.allZero,hv hb,hvs hb']

theorem Items.read_takes (type : Int) : ∀ items : Items, Takes (items.read type) fun _ => True
  | .nil => .stop []
  | .cons t item items => by
    unfold Items.read
    split
    · exact item.read_takes.mono fun _ _ _ _ => trivial
    · exact items.read_takes type

end

end Pggat.Fed
