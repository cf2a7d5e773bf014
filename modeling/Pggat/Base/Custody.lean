import Mathlib.Data.Set.Insert
import Mathlib.Logic.Function.Basic

/-! Resources that stores lend to owners, at most one to an owner, and a note of what each owner is using.
A resource belongs to one store and is never made twice. -/
namespace Pggat.Base

@[ext] structure Custody (ι α β : Type) where
  made : Set (ι × β)
  stock : Set (ι × β)
  free : Set (ι × β)
  holds : α → Option (ι × β)
  noted : α → Option β

namespace Custody
variable {ι α β : Type} {c : Custody ι α β} {a : α} {p : ι × β} {b : β}

def add (c : Custody ι α β) (p : ι × β) : Custody ι α β :=
  { c with made := insert p c.made, stock := insert p c.stock, free := insert p c.free }

def drop (c : Custody ι α β) (p : ι × β) : Custody ι α β :=
  { c with stock := c.stock \ {p}, free := c.free \ {p} }

/-- Every resource is free or with one owner, never both. -/
structure Lent (c : Custody ι α β) : Prop where
  free_stock : c.free ⊆ c.stock
  stock_made : c.stock ⊆ c.made
  made_once : ∀ p ∈ c.made, ∀ q ∈ c.made, p.2 = q.2 → p = q
  holds_made : ∀ a p, c.holds a = some p → p ∈ c.made
  holds_busy : ∀ a p, c.holds a = some p → p ∉ c.free
  holds_once : ∀ a a' p, c.holds a = some p → c.holds a' = some p → a = a'

namespace Lent

theorem add (h : c.Lent) (hp : ∀ q ∈ c.made, p.2 ≠ q.2) : (c.add p).Lent where
  free_stock := Set.insert_subset_insert h.free_stock
  stock_made := Set.insert_subset_insert h.stock_made
  made_once := by
    rintro q (rfl | hq) r (rfl | hr) hqr
    · rfl
    · exact absurd hqr (hp r hr)
    · exact absurd hqr.symm (hp q hq)
    · exact h.made_once q hq r hr hqr
  holds_made a q hq := Or.inr (h.holds_made a q hq)
  holds_busy := by
    rintro a q hq (rfl | hf)
    · exact hp q (h.holds_made a q hq) rfl
    · exact h.holds_busy a q hq hf
  holds_once := h.holds_once

theorem fewer {c' : Custody ι α β} (h : c.Lent) (made : c'.made = c.made) (stock : c'.stock = c.stock)
    (free : c'.free = c.free) (holds : ∀ a p, c'.holds a = some p → c.holds a = some p) : c'.Lent where
  free_stock := free ▸ stock ▸ h.free_stock
  stock_made := stock ▸ made ▸ h.stock_made
  made_once := made ▸ h.made_once
  holds_made a p hp := made ▸ h.holds_made a p (holds a p hp)
  holds_busy a p hp := free ▸ h.holds_busy a p (holds a p hp)
  holds_once a a' p hp hp' := h.holds_once a a' p (holds a p hp) (holds a' p hp')

theorem drop (h : c.Lent) : (c.drop p).Lent where
  free_stock _ hq := ⟨h.free_stock hq.1,hq.2⟩
  stock_made _ hq := h.stock_made hq.1
  made_once := h.made_once
  holds_made := h.holds_made
  holds_busy a q hq hf := h.holds_busy a q hq hf.1
  holds_once := h.holds_once

end Lent

/-- Everything in stock is free or with an owner. -/
def Covered (c : Custody ι α β) : Prop := ∀ p ∈ c.stock, p ∈ c.free ∨ ∃ a, c.holds a = some p

namespace Covered

theorem add (h : c.Covered) : (c.add p).Covered := by
  rintro q (rfl | hq)
  · exact .inl (.inl rfl)
  · exact (h q hq).imp_left .inr

theorem drop (h : c.Covered) : (c.drop p).Covered := by
  rintro q ⟨hq,ne⟩
  exact (h q hq).imp_left fun hf => ⟨hf,ne⟩

end Covered

/-- The resource is with this owner or given up by its store, and nobody else can have it. -/
structure Keeps (c : Custody ι α β) (a : α) (p : ι × β) : Prop where
  made : p ∈ c.made
  held : c.holds a = some p ∨ p ∉ c.stock
  busy : p ∉ c.free
  alone : ∀ a', a' ≠ a → c.holds a' ≠ some p

/-- Each owner keeps what is noted of it. -/
def Attended (c : Custody ι α β) : Prop :=
  ∀ a b, c.noted a = some b → ∃ k, c.Keeps a (k,b)

theorem Lent.keeps (h : c.Lent) (hp : c.holds a = some p) : c.Keeps a p where
  made := h.holds_made a p hp
  held := .inl hp
  busy := h.holds_busy a p hp
  alone a' ha hp' := ha (h.holds_once a' a p hp' hp)

namespace Keeps
variable {o : α} {q : ι × β}

private theorem add (h : c.Keeps o q) (hp : ∀ q ∈ c.made, p.2 ≠ q.2) : (c.add p).Keeps o q := by
  have hne : q ≠ p := fun e => hp q h.made (e ▸ rfl)
  refine ⟨Or.inr h.made, ?_, ?_, h.alone⟩
  · exact h.held.imp_right fun hs => by rintro (e | e); exacts [hne e, hs e]
  · rintro (e | e)
    exacts [hne e, h.busy e]

private theorem drop (h : c.Keeps o q) : (c.drop p).Keeps o q :=
  ⟨h.made,h.held.imp_right fun hs e => hs e.1,fun e => h.busy e.1,h.alone⟩

end Keeps

namespace Attended

theorem add (h : c.Attended) (hp : ∀ q ∈ c.made, p.2 ≠ q.2) : (c.add p).Attended := by
  intro o b hb
  obtain ⟨k,hk⟩ := h o b hb
  exact ⟨k,hk.add hp⟩

theorem drop (h : c.Attended) : (c.drop p).Attended := by
  intro o b hb
  obtain ⟨k,hk⟩ := h o b hb
  exact ⟨k,hk.drop⟩

end Attended

section Owners
variable [DecidableEq α]

def take (c : Custody ι α β) (a : α) (p : ι × β) : Custody ι α β :=
  { c with free := c.free \ {p}, holds := Function.update c.holds a (some p) }

/-- A store takes back only what it still has in stock. -/
def giveBack (c : Custody ι α β) (a : α) (p : ι × β) : Custody ι α β :=
  { c with free := c.free ∪ {p} ∩ c.stock, holds := Function.update c.holds a none }

def discard (c : Custody ι α β) (a : α) (p : ι × β) : Custody ι α β :=
  { c.drop p with holds := Function.update c.holds a none }

def note (c : Custody ι α β) (a : α) (b : Option β) : Custody ι α β :=
  { c with noted := Function.update c.noted a b }

namespace Lent

theorem take (h : c.Lent) (hp : p ∈ c.free) : (c.take a p).Lent := by
  have holder : ∀ a' q, Function.update c.holds a (some p) a' = some q →
      a' = a ∧ q = p ∨ a' ≠ a ∧ c.holds a' = some q := by
    intro a' q hq
    rcases eq_or_ne a' a with rfl | ha
    · exact .inl ⟨rfl,by simpa [eq_comm] using hq⟩
    · exact .inr ⟨ha,by simpa [ha] using hq⟩
  refine ⟨fun q hq => h.free_stock hq.1, h.stock_made, h.made_once, ?_, ?_, ?_⟩
  · intro a' q hq
    obtain ⟨-,rfl⟩ | ⟨-,hq⟩ := holder a' q hq
    · exact h.stock_made (h.free_stock hp)
    · exact h.holds_made a' q hq
  · intro a' q hq hf
    obtain ⟨-,rfl⟩ | ⟨-,hq⟩ := holder a' q hq
    · exact hf.2 rfl
    · exact h.holds_busy a' q hq hf.1
  · intro a' a'' q hq hq'
    obtain ⟨e,hp'⟩ | ⟨-,hq⟩ := holder a' q hq <;> obtain ⟨e',hp''⟩ | ⟨-,hq'⟩ := holder a'' q hq'
    · exact e.trans e'.symm
    · exact absurd (hp' ▸ hp) (h.holds_busy a'' q hq')
    · exact absurd (hp'' ▸ hp) (h.holds_busy a' q hq)
    · exact h.holds_once a' a'' q hq hq'

theorem holds_of_update {f : α → Option (ι × β)} {a' : α} {q : ι × β}
    (h : Function.update f a none a' = some q) : a' ≠ a ∧ f a' = some q := by
  rcases eq_or_ne a' a with rfl | ha
  · simp at h
  · exact ⟨ha,by simpa [ha] using h⟩

theorem giveBack (h : c.Lent) (hp : c.holds a = some p) : (c.giveBack a p).Lent where
  free_stock := by
    rintro q (hq | ⟨-,hq⟩)
    · exact h.free_stock hq
    · exact hq
  stock_made := h.stock_made
  made_once := h.made_once
  holds_made a' q hq := h.holds_made a' q (holds_of_update hq).2
  holds_busy := by
    rintro a' q hq (hf | ⟨rfl,-⟩)
    · exact h.holds_busy a' q (holds_of_update hq).2 hf
    · obtain ⟨ha,hq⟩ := holds_of_update hq
      exact ha (h.holds_once a' a q hq hp)
  holds_once a' a'' q hq hq' := h.holds_once a' a'' q (holds_of_update hq).2 (holds_of_update hq').2

theorem discard (h : c.Lent) : (c.discard a p).Lent where
  free_stock := h.drop.free_stock
  stock_made := h.drop.stock_made
  made_once := h.made_once
  holds_made a' q hq := h.holds_made a' q (holds_of_update hq).2
  holds_busy a' q hq hf := h.holds_busy a' q (holds_of_update hq).2 hf.1
  holds_once a' a'' q hq hq' := h.holds_once a' a'' q (holds_of_update hq).2 (holds_of_update hq').2

theorem note {b : Option β} (h : c.Lent) : (c.note a b).Lent :=
  ⟨h.free_stock,h.stock_made,h.made_once,h.holds_made,h.holds_busy,h.holds_once⟩

end Lent

namespace Covered

theorem take (h : c.Covered) (ha : c.holds a = none) : (c.take a p).Covered := by
  intro q hq
  rcases h q hq with hf | ⟨a',ha'⟩
  · by_cases e : q = p
    · exact .inr ⟨a,e ▸ Function.update_self ..⟩
    · exact .inl ⟨hf,e⟩
  · have ne : a' ≠ a := by rintro rfl; simp [ha] at ha'
    exact .inr ⟨a',(Function.update_of_ne ne ..).trans ha'⟩

theorem giveBack (h : c.Covered) (hp : c.holds a = some p) : (c.giveBack a p).Covered := by
  intro q hq
  rcases h q hq with hf | ⟨a',ha'⟩
  · exact .inl (.inl hf)
  · rcases eq_or_ne a' a with rfl | ne
    · obtain rfl := Option.some.inj (ha'.symm.trans hp)
      exact .inl (.inr ⟨rfl,hq⟩)
    · exact .inr ⟨a',(Function.update_of_ne ne ..).trans ha'⟩

end Covered

namespace Keeps
variable {o : α} {q : ι × β}

private theorem take (h : c.Keeps o q) (hp : p ∈ c.free) (ha : c.holds a = none) : (c.take a p).Keeps o q := by
  have hne : q ≠ p := fun e => h.busy (e ▸ hp)
  refine ⟨h.made, ?_, fun e => h.busy e.1, ?_⟩
  · rcases h.held with hq | hq
    · have ho : o ≠ a := by rintro rfl; simp [ha] at hq
      exact .inl (by simpa [Custody.take,ho] using hq)
    · exact .inr hq
  · intro a' ho
    rcases eq_or_ne a' a with rfl | ha'
    · simpa [Custody.take] using hne.symm
    · simpa [Custody.take,ha'] using h.alone a' ho

private theorem giveBack (h : c.Keeps o q) (hp : c.holds a = some p) (hne : q ≠ p) : (c.giveBack a p).Keeps o q := by
  refine ⟨h.made, ?_, ?_, ?_⟩
  · rcases h.held with hq | hq
    · have ho : o ≠ a := by rintro rfl; exact hne (Option.some.inj (hq.symm.trans hp))
      exact .inl (by simpa [Custody.giveBack,ho] using hq)
    · exact .inr hq
  · rintro (e | ⟨e,-⟩)
    exacts [h.busy e, hne e]
  · intro a' ho e
    exact h.alone a' ho (Lent.holds_of_update e).2

private theorem discard (h : c.Keeps o q) (hp : c.holds a = some p) : (c.discard a p).Keeps o q := by
  refine ⟨h.made, ?_, fun e => h.busy e.1, fun a' ho e => h.alone a' ho (Lent.holds_of_update e).2⟩
  rcases h.held with hq | hq
  · rcases eq_or_ne o a with rfl | ho
    · obtain rfl := Option.some.inj (hq.symm.trans hp)
      exact .inr fun e => e.2 rfl
    · exact .inl (by simpa [Custody.discard,ho] using hq)
  · exact .inr fun e => hq e.1

end Keeps

namespace Attended

theorem take (h : c.Attended) (hp : p ∈ c.free) (ha : c.holds a = none) : (c.take a p).Attended := by
  intro o b hb
  obtain ⟨k,hk⟩ := h o b hb
  exact ⟨k,hk.take hp ha⟩

theorem giveBack (h : c.Attended) (hp : c.holds a = some p) (hn : c.noted a ≠ some p.2) :
    (c.giveBack a p).Attended := by
  intro o b hb
  obtain ⟨k,hk⟩ := h o b hb
  refine ⟨k,hk.giveBack hp ?_⟩
  rintro rfl
  rcases eq_or_ne a o with rfl | ho
  · exact hn hb
  · exact hk.alone a ho hp

theorem discard (h : c.Attended) (hp : c.holds a = some p) : (c.discard a p).Attended := by
  intro o b hb
  obtain ⟨k,hk⟩ := h o b hb
  exact ⟨k,hk.discard hp⟩

theorem note_some (h : c.Attended) (hl : c.Lent) (hp : c.holds a = some p) : (c.note a (some p.2)).Attended := by
  intro o b hb
  have keeps : ∃ k, c.Keeps o (k,b) := by
    rcases eq_or_ne o a with rfl | ho
    · obtain rfl : p.2 = b := by simpa [Custody.note] using hb
      exact ⟨p.1,hl.keeps hp⟩
    · exact h o b (by simpa [Custody.note,ho] using hb)
  obtain ⟨k,hk⟩ := keeps
  exact ⟨k,hk.made,hk.held,hk.busy,hk.alone⟩

theorem note_none (h : c.Attended) : (c.note a none).Attended := by
  intro o b hb
  rcases eq_or_ne o a with rfl | ho
  · simp [Custody.note] at hb
  · obtain ⟨k,hk⟩ := h o b (by simpa [Custody.note,ho] using hb)
    exact ⟨k,hk.made,hk.held,hk.busy,hk.alone⟩

end Attended
end Owners
end Custody
end Pggat.Base
