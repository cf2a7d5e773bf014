import Mathlib.Order.Lattice
import Mathlib.Data.List.Basic
import Mathlib.Logic.Function.Basic

/-! Finite maps as lists of pairs with ascending keys. -/
namespace Pggat.Base
variable {K V : Type} [LinearOrder K]

def Ascending (ps : List (K × V)) : Prop := ps.Pairwise fun p q => p.1 < q.1

def setPair (key : K) (value : V) (ps : List (K × V)) : List (K × V) :=
  ps.filter (·.1 < key) ++ (key,value) :: ps.filter (key < ·.1)

def erasePair (key : K) (ps : List (K × V)) : List (K × V) := ps.filter (·.1 ≠ key)

namespace Ascending
variable {key k : K} {value v : V} {ps qs : List (K × V)}

/-- A list around one of its pairs. -/
theorem middle_iff : Ascending (ps ++ (k,v) :: qs) ↔
    Ascending ps ∧ Ascending qs ∧ (∀ p ∈ ps, p.1 < k) ∧ ∀ q ∈ qs, k < q.1 := by
  unfold Ascending
  rw [List.pairwise_append,List.pairwise_cons]
  constructor
  · rintro ⟨hps,⟨hk,hqs⟩,h⟩
    exact ⟨hps,hqs,fun p hp => h p hp (k,v) List.mem_cons_self,hk⟩
  · rintro ⟨hps,hqs,hp,hk⟩
    refine ⟨hps,⟨hk,hqs⟩,fun p hp' q hq => ?_⟩
    rcases List.mem_cons.mp hq with rfl | hq
    · exact hp p hp'
    · exact (hp p hp').trans (hk q hq)

theorem setPair (h : Ascending ps) : Ascending (setPair key value ps) := by
  refine middle_iff.mpr ⟨h.filter _,h.filter _,?_,?_⟩
  · intro p hp
    simpa using (List.mem_filter.mp hp).2
  · intro p hp
    simpa using (List.mem_filter.mp hp).2

theorem erasePair (h : Ascending ps) : Ascending (erasePair key ps) := h.filter _

end Ascending

variable {key k : K} {value v : V} {ps qs : List (K × V)}

theorem filter_lt_of_lt (h : ∀ p ∈ ps, p.1 < key) : ps.filter (·.1 < key) = ps ∧ ps.filter (key < ·.1) = [] := by
  refine ⟨List.filter_eq_self.mpr fun p hp => by simpa using h p hp,List.filter_eq_nil_iff.mpr fun p hp => ?_⟩
  simpa using (h p hp).le

theorem filter_lt_of_gt (h : ∀ p ∈ ps, key < p.1) : ps.filter (·.1 < key) = [] ∧ ps.filter (key < ·.1) = ps := by
  refine ⟨List.filter_eq_nil_iff.mpr fun p hp => ?_,List.filter_eq_self.mpr fun p hp => by simpa using h p hp⟩
  simpa using (h p hp).le

theorem setPair_right (h : Ascending (ps ++ (k,v) :: qs)) (hk : k < key) :
    setPair key value (ps ++ (k,v) :: qs) = ps ++ (k,v) :: setPair key value qs := by
  obtain ⟨-,-,hp,-⟩ := Ascending.middle_iff.mp h
  obtain ⟨h₁,h₂⟩ := filter_lt_of_lt fun p hp' => (hp p hp').trans hk
  simp [setPair,List.filter_append,h₁,h₂,hk,hk.not_gt]

theorem setPair_left (h : Ascending (ps ++ (k,v) :: qs)) (hk : key < k) :
    setPair key value (ps ++ (k,v) :: qs) = setPair key value ps ++ (k,v) :: qs := by
  obtain ⟨-,-,-,hq⟩ := Ascending.middle_iff.mp h
  obtain ⟨h₁,h₂⟩ := filter_lt_of_gt fun q hq' => hk.trans (hq q hq')
  simp [setPair,List.filter_append,h₁,h₂,hk,hk.not_gt]

theorem setPair_middle (h : Ascending (ps ++ (k,v) :: qs)) :
    setPair k value (ps ++ (k,v) :: qs) = ps ++ (k,value) :: qs := by
  obtain ⟨-,-,hp,hq⟩ := Ascending.middle_iff.mp h
  obtain ⟨h₁,h₂⟩ := filter_lt_of_lt hp
  obtain ⟨h₃,h₄⟩ := filter_lt_of_gt hq
  simp [setPair,List.filter_append,h₁,h₂,h₃,h₄]

theorem erasePair_of_ne (h : ∀ p ∈ ps, p.1 ≠ key) : erasePair key ps = ps :=
  List.filter_eq_self.mpr fun p hp => by simpa using h p hp

theorem erasePair_append : erasePair key (ps ++ qs) = erasePair key ps ++ erasePair key qs := List.filter_append ..

theorem erasePair_cons_ne (hk : k ≠ key) : erasePair key ((k,v) :: ps) = (k,v) :: erasePair key ps :=
  List.filter_cons_of_pos (by simpa using hk)

theorem erasePair_cons_self : erasePair key ((key,v) :: ps) = erasePair key ps := List.filter_cons_of_neg (by simp)

theorem erasePair_right (h : Ascending (ps ++ (k,v) :: qs)) (hk : k < key) :
    erasePair key (ps ++ (k,v) :: qs) = ps ++ (k,v) :: erasePair key qs := by
  obtain ⟨-,-,hp,-⟩ := Ascending.middle_iff.mp h
  rw [erasePair_append,erasePair_of_ne fun p hp' => ((hp p hp').trans hk).ne,erasePair_cons_ne hk.ne]

theorem erasePair_left (h : Ascending (ps ++ (k,v) :: qs)) (hk : key < k) :
    erasePair key (ps ++ (k,v) :: qs) = erasePair key ps ++ (k,v) :: qs := by
  obtain ⟨-,-,-,hq⟩ := Ascending.middle_iff.mp h
  rw [erasePair_append,erasePair_cons_ne hk.ne',erasePair_of_ne fun q hq' => (hk.trans (hq q hq')).ne']

theorem erasePair_middle (h : Ascending (ps ++ (k,v) :: qs)) : erasePair k (ps ++ (k,v) :: qs) = ps ++ qs := by
  obtain ⟨-,-,hp,hq⟩ := Ascending.middle_iff.mp h
  rw [erasePair_append,erasePair_cons_self,erasePair_of_ne fun p hp' => (hp p hp').ne,
    erasePair_of_ne fun q hq' => (hq q hq').ne']

theorem mem_left (h : Ascending (ps ++ (k,v) :: qs)) (hk : key < k) (hm : key ∈ (ps ++ (k,v) :: qs).map Prod.fst) :
    key ∈ ps.map Prod.fst := by
  obtain ⟨-,-,-,hq⟩ := Ascending.middle_iff.mp h
  rw [List.map_append,List.mem_append,List.map_cons,List.mem_cons] at hm
  rcases hm with hm | rfl | hm
  · exact hm
  · exact absurd hk (lt_irrefl _)
  · obtain ⟨q,hq',rfl⟩ := List.mem_map.mp hm
    exact absurd (hq q hq') hk.not_gt

theorem mem_right (h : Ascending (ps ++ (k,v) :: qs)) (hk : k < key) (hm : key ∈ (ps ++ (k,v) :: qs).map Prod.fst) :
    key ∈ qs.map Prod.fst := by
  obtain ⟨-,-,hp,-⟩ := Ascending.middle_iff.mp h
  rw [List.map_append,List.mem_append,List.map_cons,List.mem_cons] at hm
  rcases hm with hm | rfl | hm
  · obtain ⟨p,hp',rfl⟩ := List.mem_map.mp hm
    exact absurd (hp p hp') hk.not_gt
  · exact absurd hk (lt_irrefl _)
  · exact hm

private theorem mem_setPair : (k,v) ∈ setPair key value ps ↔ k = key ∧ v = value ∨ k ≠ key ∧ (k,v) ∈ ps := by
  simp only [setPair,List.mem_append,List.mem_cons,List.mem_filter,decide_eq_true_eq,Prod.mk.injEq,
    ← lt_or_lt_iff_ne]
  tauto

private theorem mem_erasePair : (k,v) ∈ erasePair key ps ↔ k ≠ key ∧ (k,v) ∈ ps := by
  simp only [erasePair,List.mem_filter,decide_eq_true_eq,and_comm]

theorem erasePair_eq_self (hk : key ∉ ps.map Prod.fst) : erasePair key ps = ps :=
  erasePair_of_ne fun p hp he => hk (List.mem_map.mpr ⟨p,hp,he⟩)

def Represents (m : K → Option V) (ps : List (K × V)) : Prop := ∀ k v, m k = some v ↔ (k,v) ∈ ps

namespace Represents
variable {m : K → Option V}

theorem set (h : Represents m ps) : Represents (Function.update m key (some value)) (setPair key value ps) := by
  intro k v
  rw [mem_setPair]
  by_cases hk : k = key
  · subst hk
    rw [Function.update_self,Option.some.injEq]
    constructor
    · intro hv
      exact .inl ⟨rfl,hv.symm⟩
    · rintro (⟨-,hv⟩ | ⟨hk,-⟩)
      · exact hv.symm
      · exact absurd rfl hk
  · rw [Function.update_of_ne hk,h]
    constructor
    · intro hv
      exact .inr ⟨hk,hv⟩
    · rintro (⟨he,-⟩ | ⟨-,hv⟩)
      · exact absurd he hk
      · exact hv

theorem erase (h : Represents m ps) : Represents (Function.update m key none) (erasePair key ps) := by
  intro k v
  rw [mem_erasePair]
  by_cases hk : k = key
  · subst hk
    simp
  · rw [Function.update_of_ne hk,h,and_iff_right hk]

end Represents

/-- The entry of a map that comes before all others with a property, or none if there is no such entry. -/
def Foremost (le : K → K → Prop) (m : K → Option V) (P : K → Prop) : Option (K × V) → Prop
  | none => ∀ k, P k → m k = none
  | some e => m e.1 = some e.2 ∧ P e.1 ∧ ∀ k v, P k → m k = some v → le e.1 k

section Foremost
variable {m : K → Option V} {P : K → Prop} [DecidablePred P]

omit [LinearOrder K] in
theorem foremost_none (hr : Represents m ps) (he : ps.filter (P ·.1) = []) : ∀ k, P k → m k = none := by
  intro k hk
  cases hm : m k with
  | none => rfl
  | some v =>
    have hmem : (k,v) ∈ ps.filter (P ·.1) := List.mem_filter.mpr ⟨(hr k v).mp hm,by simpa using hk⟩
    rw [he] at hmem
    cases hmem

theorem foremost_head (hr : Represents m ps) (ha : Ascending ps) :
    Foremost (· ≤ ·) m P (ps.filter (P ·.1)).head? := by
  cases he : ps.filter (P ·.1) with
  | nil => exact foremost_none hr he
  | cons e es =>
    have hmem : ∀ p, p ∈ e :: es ↔ p ∈ ps ∧ P p.1 := by
      intro p
      rw [← he,List.mem_filter,decide_eq_true_eq]
    have hasc : Ascending (e :: es) := he ▸ ha.filter _
    obtain ⟨hin,hP⟩ := (hmem e).mp List.mem_cons_self
    refine ⟨(hr _ _).mpr hin,hP,fun k v hk hm => ?_⟩
    rcases List.mem_cons.mp ((hmem (k,v)).mpr ⟨(hr k v).mp hm,hk⟩) with he' | hlater
    · exact (congrArg Prod.fst he').ge
    · exact (List.rel_of_pairwise_cons hasc hlater).le

theorem foremost_getLast (hr : Represents m ps) (ha : Ascending ps) :
    Foremost (· ≥ ·) m P (ps.filter (P ·.1)).getLast? := by
  rcases List.eq_nil_or_concat (ps.filter (P ·.1)) with he | ⟨es,e,he⟩
  · rw [he]
    exact foremost_none hr he
  · rw [List.concat_eq_append] at he
    have hmem : ∀ p, p ∈ es ++ [e] ↔ p ∈ ps ∧ P p.1 := by
      intro p
      rw [← he,List.mem_filter,decide_eq_true_eq]
    have hasc : Ascending (es ++ [e]) := he ▸ ha.filter _
    rw [he,List.getLast?_concat]
    obtain ⟨hin,hP⟩ := (hmem e).mp List.mem_concat_self
    refine ⟨(hr _ _).mpr hin,hP,fun k v hk hm => ?_⟩
    rcases List.mem_append.mp ((hmem (k,v)).mpr ⟨(hr k v).mp hm,hk⟩) with hearlier | he'
    · exact ((List.pairwise_append.mp hasc).2.2 _ hearlier e List.mem_cons_self).le
    · exact (congrArg Prod.fst (List.mem_singleton.mp he')).le

end Foremost

end Pggat.Base
