import Mathlib.Algebra.Group.Pi.Basic
import Mathlib.Algebra.GroupWithZero.Nat
import Pggat.Base.Loops
import Pggat.Kitchen.Chef

/-! The books of the kitchen: a recipe's count is the number of its connections in the kitchen and of the slots that
calls have allocated. Each operation of the chef keeps them, given what it does to those slots. -/
namespace Pggat.Kitchen
open Pggat.Base

def Recipe.Within (r : Recipe) : Prop :=
  r.maxConnections ≠ 0 → r.count ≤ max 0 (max r.minConnections r.maxConnections)

namespace Recipe

variable {r : Recipe}

theorem Within.free (h : r.Within) : r.free.Within := fun hm => by
  have := h hm
  simp only [Recipe.free]
  omega

variable {r' : Recipe}

theorem Within.allocate (h : r.allocate = some r') : r'.Within := by
  rw [Recipe.allocate] at h
  split at h
  · cases h
  · cases h
    intro hm
    simp only at hm ⊢
    omega

theorem allocateInitial_count (h : r.count = 0) : r.allocateInitial.2.count = r.allocateInitial.1 := by
  rw [allocateInitial]
  split <;> simp only <;> omega

theorem Within.allocateInitial (h : r.count = 0) : r.allocateInitial.2.Within := by
  rw [Recipe.allocateInitial]
  split
  · exact fun _ => by dsimp only; omega
  · exact fun _ => by dsimp only; omega

theorem allocate_count (h : r.allocate = some r') : r'.count = r.count + 1 := by
  rw [allocate] at h
  split at h
  · cases h
  · cases h; rfl

end Recipe

theorem add_single_succ (slots : RecipeId → Nat) (r : RecipeId) (n : Nat) :
    slots + Pi.single r (n + 1) = slots + Pi.single r n + Pi.single r 1 := by
  funext r'
  rcases eq_or_ne r' r with rfl | ne
  · simp [Nat.add_assoc]
  · simp [ne]

namespace Chef

/-- The books, where `slots` are the allocated slots of each recipe for which no connection is in the kitchen. -/
structure Balanced (s : Chef) (slots : RecipeId → Nat) : Prop where
  known : ∀ c r, s.byConn.get c = some r ↔ c ∈ s.conns r
  nodup : ∀ r, (s.conns r).Nodup
  count : ∀ r, (s.recipes r).count = (s.conns r).length + slots r
  within : ∀ r, (s.recipes r).Within
  cells : ∀ a, ∀ r ∈ s.arrays.cells a, r < s.made
  unborn : ∀ r, s.made ≤ r → s.conns r = [] ∧ slots r = 0

namespace Balanced
variable {s : Chef} {slots : RecipeId → Nat}

theorem initial : ({} : Chef).Balanced fun _ => 0 where
  known _ _ := by simp
  nodup _ := .nil
  count _ := rfl
  within _ h := absurd rfl h
  cells _ _ h := nomatch h
  unborn _ _ := ⟨rfl,rfl⟩

theorem congr (h : s.Balanced slots) {slots' : RecipeId → Nat} (e : ∀ r, slots' r = slots r) : s.Balanced slots' :=
  (funext e : slots' = slots) ▸ h

theorem frame (h : s.Balanced slots) {s' : Chef} (recipes : s'.recipes = s.recipes) (made : s'.made = s.made)
    (conns : s'.conns = s.conns) (byConn : s'.byConn = s.byConn) (cells : ∀ a, ∀ r ∈ s'.arrays.cells a, r < s.made) :
    s'.Balanced slots where
  known c r := by rw [byConn,conns]; exact h.known c r
  nodup r := conns ▸ h.nodup r
  count r := by rw [recipes,conns]; exact h.count r
  within r := recipes ▸ h.within r
  cells := made ▸ cells
  unborn r hr := by rw [conns]; exact h.unborn r (made ▸ hr)

variable {r : RecipeId}

theorem free (h : s.Balanced (slots + Pi.single r 1)) : (s.free r).Balanced slots where
  known := h.known
  nodup := h.nodup
  count r' := by
    have count := h.count r'
    rcases eq_or_ne r' r with rfl | ne
    · simp [Chef.free,setRecipe,Recipe.free] at count ⊢
      omega
    · simpa [Chef.free,setRecipe,ne] using count
  within r' := by
    rcases eq_or_ne r' r with rfl | ne
    · simpa [Chef.free,setRecipe] using (h.within r').free
    · simpa [Chef.free,setRecipe,ne] using h.within r'
  cells := h.cells
  unborn r' hr := ⟨(h.unborn r' hr).1,Nat.eq_zero_of_add_eq_zero_right (h.unborn r' hr).2⟩

variable {c : Conn}

theorem drop (h : s.Balanced slots) (hc : s.byConn.get c = some r) :
    (s.drop r c).Balanced slots where
  known c' r' := by
    simp only [Chef.drop,Map.get_erase]
    rcases eq_or_ne c' c with rfl | ne
    · rcases eq_or_ne r' r with rfl | other
      · simpa using (h.nodup r').not_mem_erase
      · simp [Function.update_of_ne other,← h.known,hc,Ne.symm other]
    · rcases eq_or_ne r' r with rfl | other
      · simpa [ne,List.mem_erase_of_ne ne] using h.known c' r'
      · simpa [ne,Function.update_of_ne other] using h.known c' r'
  nodup r' := by
    rcases eq_or_ne r' r with rfl | ne
    · simpa [Chef.drop] using (h.nodup r').erase c
    · simpa [Chef.drop,ne] using h.nodup r'
  count r' := by
    have count := h.count r'
    rcases eq_or_ne r' r with rfl | ne
    · have mem := (h.known c r').mp hc
      have pos := List.length_pos_of_mem mem
      simp only [Chef.drop,Chef.shut,Chef.free,setRecipe,Recipe.free,Function.update_self,List.length_erase_of_mem mem]
      omega
    · simpa [Chef.drop,Chef.shut,Chef.free,setRecipe,ne] using count
  within r' := by
    rcases eq_or_ne r' r with rfl | ne
    · simpa [Chef.drop,Chef.shut,Chef.free,setRecipe] using (h.within r').free
    · simpa [Chef.drop,Chef.shut,Chef.free,setRecipe,ne] using h.within r'
  cells := h.cells
  unborn r' hr := by
    have none := (h.unborn r' hr).1
    refine ⟨?_,(h.unborn r' hr).2⟩
    rcases eq_or_ne r' r with rfl | ne
    · simp [Chef.drop,none]
    · simpa [Chef.drop,ne] using none

theorem insert (h : s.Balanced (slots + Pi.single r 1)) (hc : s.byConn.get c = none) :
    (s.insert r c).Balanced slots where
  known c' r' := by
    simp only [Chef.insert,Map.get_insert]
    have absent (r' : RecipeId) : c ∉ s.conns r' := fun mem => by simp [(h.known c r').mpr mem] at hc
    rcases eq_or_ne c' c with rfl | ne
    · rcases eq_or_ne r' r with rfl | other
      · simp
      · simp [Function.update_of_ne other,absent,Ne.symm other]
    · rcases eq_or_ne r' r with rfl | other
      · simpa [ne] using h.known c' r'
      · simpa [ne,Function.update_of_ne other] using h.known c' r'
  nodup r' := by
    rcases eq_or_ne r' r with rfl | ne
    · have absent : c ∉ s.conns r' := fun mem => by simp [(h.known c r').mpr mem] at hc
      simpa [Chef.insert] using ⟨absent,h.nodup r'⟩
    · simpa [Chef.insert,ne] using h.nodup r'
  count r' := by
    have count := h.count r'
    rcases eq_or_ne r' r with rfl | ne
    · simp [Chef.insert] at count ⊢
      omega
    · simpa [Chef.insert,ne] using count
  within := h.within
  cells := h.cells
  unborn r' hr := by
    obtain ⟨none,zero⟩ := h.unborn r' hr
    rcases eq_or_ne r' r with rfl | ne
    · simp at zero
    · exact ⟨by simpa [Chef.insert,ne] using none,by simpa [ne] using zero⟩

theorem allocate (h : s.Balanced slots) (hr : (s.recipes r).allocate.isSome) (made : r < s.made) :
    (s.allocate r).Balanced (slots + Pi.single r 1) := by
  obtain ⟨recipe,ha⟩ := Option.isSome_iff_exists.mp hr
  refine ⟨h.known,h.nodup,fun r' => ?_,fun r' => ?_,h.cells,fun r' hr' => ?_⟩
  · have count := h.count r'
    rcases eq_or_ne r' r with rfl | ne
    · simp [Chef.allocate,setRecipe,ha,Recipe.allocate_count ha]
      omega
    · simpa [Chef.allocate,setRecipe,ne] using count
  · rcases eq_or_ne r' r with rfl | ne
    · simpa [Chef.allocate,setRecipe,ha] using Recipe.Within.allocate ha
    · simpa [Chef.allocate,setRecipe,ne] using h.within r'
  · have ne : r' ≠ r := fun e => absurd (e ▸ hr') (Nat.not_le.mpr made)
    exact ⟨(h.unborn r' hr').1,by simpa [ne] using (h.unborn r' hr').2⟩

theorem drops {β : Type} (recipe : β → RecipeId) (conn : β → Conn) {l : List β} (h : s.Balanced slots)
    (distinct : (l.map conn).Nodup) (hl : ∀ b ∈ l, s.byConn.get (conn b) = some (recipe b)) :
    (l.foldl (fun s b => s.drop (recipe b) (conn b)) s).Balanced slots := by
  induction l generalizing s with
  | nil => exact h
  | cons b l ih =>
    obtain ⟨fresh,distinct⟩ := List.nodup_cons.mp distinct
    refine ih (h.drop (hl b List.mem_cons_self)) distinct fun b' hb' => ?_
    have ne : conn b' ≠ conn b := fun e => fresh (List.mem_map.mpr ⟨b',hb',e⟩)
    simpa [Chef.drop,ne] using hl b' (List.mem_cons_of_mem b hb')

private theorem removeOrder (h : s.Balanced slots) (r : RecipeId) : (s.removeOrder r).Balanced slots :=
  h.frame rfl rfl rfl rfl fun _ _ hr => let ⟨a',hr⟩ := Arrays.mem_cells_remove hr; h.cells a' _ hr

theorem appendOrder (h : s.Balanced slots) (hr : r < s.made) (spare : Nat) :
    (s.appendOrder r spare).Balanced slots := by
  refine h.frame rfl rfl rfl rfl fun _ r' hr' => ?_
  rcases Arrays.mem_cells_append hr' with ⟨a',hr'⟩ | rfl | hr'
  · exact h.cells a' r' hr'
  · exact hr
  · exact (List.mem_replicate.mp hr').2 ▸ Nat.zero_lt_of_lt hr

theorem arrange (h : s.Balanced slots) {l : List RecipeId} (hl : s.Arranges l) : (s.arrange l).Balanced slots := by
  refine h.frame rfl rfl rfl rfl fun _ r hr => ?_
  rcases Arrays.mem_cells_write hr with ⟨a',hr⟩ | hr
  · exact h.cells a' r hr
  · exact h.cells s.order.array r (List.mem_of_mem_take (hl.1.mem_iff.mp hr))

theorem forget (h : s.Balanced slots) (name : GoString) : (s.forget name).2.Balanced slots := by
  rw [Chef.forget]
  split
  · exact h
  · rename_i r hr
    have start : Balanced { s with byName := s.byName.erase name } slots := h.frame rfl rfl rfl rfl h.cells
    refine (start.drops (fun _ => r) id ?_ fun c hc => (h.known c r).mpr hc).removeOrder r
    exact (List.map_id _).symm ▸ h.nodup r

theorem burn (h : s.Balanced slots) (c : Conn) : (s.burn c).Balanced slots := by
  rw [Chef.burn]
  split
  · exact h
  · rename_i r hr
    exact h.drop hr

theorem ignite (h : s.Balanced slots) (c : Conn) : (s.ignite c).2.Balanced slots := by
  rw [Chef.ignite]
  split
  · exact h
  · rename_i r hr
    split
    · exact h
    · exact h.drop hr

theorem close (h : s.Balanced slots) : s.close.Balanced slots := by
  have start : Balanced { s with byName := ∅, order := { s.order with len := 0 } } slots :=
    h.frame rfl rfl rfl rfl h.cells
  exact start.drops Sigma.snd Sigma.fst s.byConn.nodupKeys fun e he => (Map.mem_entries s.byConn e.1 e.2).mp he

theorem inserts {l : List Conn} (h : s.Balanced (slots + Pi.single r l.length)) (distinct : l.Nodup)
    (hl : ∀ c ∈ l, s.byConn.get c = none) : (l.foldl (fun s c => s.insert r c) s).Balanced slots := by
  induction l generalizing s with
  | nil => exact h.congr fun r' => by simp
  | cons c l ih =>
    obtain ⟨fresh,distinct⟩ := List.nodup_cons.mp distinct
    rw [List.length_cons,add_single_succ] at h
    refine ih (h.insert (hl c List.mem_cons_self)) distinct fun c' hc' => ?_
    have ne : c' ≠ c := fun e => fresh (e ▸ hc')
    simpa [Chef.insert,ne] using hl c' (List.mem_cons_of_mem c hc')

theorem newRecipe (h : s.Balanced slots) {recipe : Recipe} {n : Nat} (count : recipe.count = n)
    (within : recipe.Within) :
    Balanced { s.setRecipe s.made recipe with made := s.made + 1 } (slots + Pi.single s.made n) where
  known := h.known
  nodup := h.nodup
  count r := by
    rcases eq_or_ne r s.made with rfl | ne
    · obtain ⟨none,zero⟩ := h.unborn s.made (Nat.le_refl _)
      simp [setRecipe,count,none,zero]
    · simpa [setRecipe,ne] using h.count r
  within r := by
    rcases eq_or_ne r s.made with rfl | ne
    · simpa [setRecipe] using within
    · simpa [setRecipe,ne] using h.within r
  cells a r hr := Nat.lt_succ_of_lt (h.cells a r hr)
  unborn r hr := by
    have ne : r ≠ s.made := Nat.ne_of_gt hr
    obtain ⟨none,zero⟩ := h.unborn r (Nat.le_of_succ_le hr)
    exact ⟨none,by simpa [ne] using zero⟩

end Balanced
end Chef
end Pggat.Kitchen
