import Pggat.Kitchen.Balance

/-! What the sections under the chef's mutex do to the kitchen: which connections leave it and which come. -/
namespace Pggat.Kitchen
open Pggat.Base
namespace Chef

/-- The connections `gone` have left the kitchen, and are closed unless they are broken. -/
structure Dropped (s s' : Chef) (gone : List Conn) : Prop where
  byConn : ∀ c, s'.byConn.get c = if c ∈ gone then none else s.byConn.get c
  opened : ∀ c ∈ s'.opened, c ∈ s.opened ∧ (c ∈ gone → c ∈ s.broken)
  broken : s'.broken = s.broken
  score : s'.score = s.score
  made : s'.made = s.made
  byName : s'.byName = s.byName
  order : s'.order = s.order
  arrays : s'.arrays = s.arrays
  dialed : s'.dialed = s.dialed
  origin : s'.origin = s.origin

theorem mem_shut {s : Chef} {c c' : Conn} (h : c' ∈ (s.shut c).opened) : c' ∈ s.opened ∧ (c' = c → c' ∈ s.broken) := by
  by_cases broken : c ∈ s.broken
  · simp only [shut,if_pos broken] at h
    exact ⟨h,fun same => same ▸ broken⟩
  · simp only [shut,if_neg broken,Finset.mem_erase] at h
    exact ⟨h.2,fun same => absurd same h.1⟩

theorem drop_dropped (s : Chef) (r : RecipeId) (c : Conn) : s.Dropped (s.drop r c) [c] where
  byConn c' := by simp [drop]
  opened c' hc := by
    obtain ⟨hc,broken⟩ := mem_shut (s := s.free r) hc
    exact ⟨hc,fun same => broken (List.mem_singleton.mp same)⟩
  broken := rfl
  score := rfl
  made := rfl
  byName := rfl
  order := rfl
  arrays := rfl
  dialed := rfl
  origin := rfl

variable {s s' : Chef} {gone : List Conn}

private theorem Dropped.trans {s'' : Chef} {gone' : List Conn} (h : s.Dropped s' gone) (h' : s'.Dropped s'' gone') :
    s.Dropped s'' (gone ++ gone') where
  byConn c := by
    rw [h'.byConn,h.byConn]
    by_cases hc : c ∈ gone <;> by_cases hc' : c ∈ gone' <;> simp [hc,hc']
  opened c hc := by
    obtain ⟨hc,later⟩ := h'.opened c hc
    obtain ⟨hc,before⟩ := h.opened c hc
    exact ⟨hc,fun gone => (List.mem_append.mp gone).elim before fun gone => h.broken ▸ later gone⟩
  broken := h'.broken.trans h.broken
  score := h'.score.trans h.score
  made := h'.made.trans h.made
  byName := h'.byName.trans h.byName
  order := h'.order.trans h.order
  arrays := h'.arrays.trans h.arrays
  dialed := h'.dialed.trans h.dialed
  origin := h'.origin.trans h.origin

theorem Dropped.refl (s : Chef) : s.Dropped s [] where
  byConn _ := by simp
  opened _ hc := ⟨hc,nofun⟩
  broken := rfl
  score := rfl
  made := rfl
  byName := rfl
  order := rfl
  arrays := rfl
  dialed := rfl
  origin := rfl

theorem drops_dropped {β : Type} (recipe : β → RecipeId) (conn : β → Conn) (l : List β) (s : Chef) :
    s.Dropped (l.foldl (fun s b => s.drop (recipe b) (conn b)) s) (l.map conn) := by
  induction l generalizing s with
  | nil => exact .refl s
  | cons b l ih => exact (s.drop_dropped (recipe b) (conn b)).trans (ih _)

variable {c : Conn} {r : RecipeId}

/-- A connection that was in the kitchen before and did not leave is still there; no other is. -/
theorem Dropped.get_eq_some (h : s.Dropped s' gone) :
    s'.byConn.get c = some r ↔ s.byConn.get c = some r ∧ c ∉ gone := by
  rw [h.byConn]
  split <;> simp_all

/-- What `forget` does about a name that is known. -/
structure Forgot (s s' : Chef) (name : GoString) (r : RecipeId) : Prop where
  byName : s'.byName = s.byName.erase name
  arrays : s'.arrays = (s.arrays.remove s.order r).1
  order : s'.order = (s.arrays.remove s.order r).2

variable {name : GoString}

theorem forget_eq (hr : s.byName.get name = some r) :
    s.forget name = (s.conns r,
      ((s.conns r).foldl (fun (s : Chef) conn => s.drop r conn)
        { s with byName := s.byName.erase name }).removeOrder r) := by
  rw [forget,hr]

theorem drops_forgotten (s : Chef) (name : GoString) (r : RecipeId) :
    Dropped { s with byName := s.byName.erase name }
      ((s.conns r).foldl (fun (s : Chef) conn => s.drop r conn) { s with byName := s.byName.erase name })
      (s.conns r) := by
  have gone := drops_dropped (fun _ : Conn => r) id (s.conns r) { s with byName := s.byName.erase name }
  rwa [List.map_id] at gone

theorem forget_known (hr : s.byName.get name = some r) :
    s.Forgot (s.forget name).2 name r := by
  have gone := s.drops_forgotten name r
  rw [forget_eq hr]
  refine ⟨gone.byName,?_,?_⟩
  · exact congrArg₂ (fun a o => (Arrays.remove a o r).1) gone.arrays gone.order
  · exact congrArg₂ (fun a o => (Arrays.remove a o r).2) gone.arrays gone.order

theorem forget_unknown (h : s.byName.get name = none) : s.forget name = ([],s) := by
  rw [forget,h]

theorem forget_dropped (s : Chef) (name : GoString) :
    Dropped { s with
      byName := (s.forget name).2.byName
      arrays := (s.forget name).2.arrays
      order := (s.forget name).2.order } (s.forget name).2 (s.forget name).1 := by
  cases hr : s.byName.get name with
  | none =>
    rw [forget_unknown hr]
    exact .refl s
  | some r =>
    obtain ⟨byConn,opened,broken,score,made,byName,-,-,dialed,origin⟩ := s.drops_forgotten name r
    rw [forget_eq hr]
    exact ⟨byConn,opened,broken,score,made,rfl,rfl,rfl,dialed,origin⟩

theorem forget_sub
    (h : (s.forget name).2.byConn.get c = some r) : s.byConn.get c = some r :=
  ((s.forget_dropped name).get_eq_some.mp h).1

theorem forget_byName (s : Chef) (name name' : GoString) :
    (s.forget name).2.byName.get name' = if name' = name then none else s.byName.get name' := by
  cases hr : s.byName.get name with
  | none =>
    rw [forget_unknown hr]
    split
    · rename_i e
      exact e ▸ hr
    · rfl
  | some r => rw [(forget_known hr).byName,Map.get_erase]

theorem burn_dropped (s : Chef) (c : Conn) : s.Dropped (s.burn c) (if (s.byConn.get c).isSome then [c] else []) := by
  rw [burn]
  split
  · rename_i none
    simpa [none] using Dropped.refl s
  · rename_i r hr
    simpa [hr] using s.drop_dropped r c

theorem ignite_dropped (s : Chef) (c : Conn) : s.Dropped (s.ignite c).2 (if (s.ignite c).1 then [c] else []) := by
  cases hr : s.byConn.get c with
  | none => simpa [ignite,hr] using Dropped.refl s
  | some r =>
    cases ht : (s.recipes r).tryFree with
    | none => simpa [ignite,hr,ht] using Dropped.refl s
    | some recipe => simpa [ignite,hr,ht] using s.drop_dropped r c

theorem ignite_refused (h : (s.ignite c).1 = false) : (s.ignite c).2 = s := by
  cases hr : s.byConn.get c with
  | none => simp [ignite,hr]
  | some r =>
    cases ht : (s.recipes r).tryFree with
    | none => simp [ignite,hr,ht]
    | some recipe => simp [ignite,hr,ht] at h

theorem close_dropped (s : Chef) :
    Dropped { s with byName := ∅, order := { s.order with len := 0 } } s.close s.byConn.keys :=
  drops_dropped Sigma.snd Sigma.fst s.byConn.entries _

/-- The connections `added` have come into the kitchen. -/
structure Inserted (s s' : Chef) (r : RecipeId) (added : List Conn) : Prop where
  byConn : ∀ c, s'.byConn.get c = if c ∈ added then some r else s.byConn.get c
  opened : s'.opened = s.opened
  broken : s'.broken = s.broken
  made : s'.made = s.made
  byName : s'.byName = s.byName
  order : s'.order = s.order
  arrays : s'.arrays = s.arrays
  dialed : s'.dialed = s.dialed
  origin : s'.origin = s.origin

theorem inserts_inserted (r : RecipeId) (added : List Conn) (s : Chef) :
    s.Inserted (added.foldl (fun s c => s.insert r c) s) r added := by
  induction added generalizing s with
  | nil => exact ⟨fun c => by simp,rfl,rfl,rfl,rfl,rfl,rfl,rfl,rfl⟩
  | cons c l ih =>
    obtain ⟨byConn,opened,broken,made,byName,order,arrays,dialed,origin⟩ := ih (s.insert r c)
    refine ⟨fun c' => ?_,opened,broken,made,byName,order,arrays,dialed,origin⟩
    rw [List.foldl_cons,byConn]
    by_cases hl : c' ∈ l
    · simp [hl]
    · simp [hl,insert]

/-- What the section of `Learn` does once it has forgotten the name. -/
structure Learned (s s' : Chef) (name : GoString) (r : RecipeId) (added : List Conn) (spare : Nat) : Prop where
  inserted : Inserted { s with byName := s.byName.insert name r, arrays := s'.arrays, order := s'.order } s' r added
  arrays : s'.arrays = (s.arrays.append s.order r (List.replicate spare 0)).1
  order : s'.order = (s.arrays.append s.order r (List.replicate spare 0)).2

theorem learn_learned (s : Chef) (name : GoString) (r : RecipeId) (added : List Conn) (spare : Nat) :
    (s.forget name).2.Learned (s.learn name r added spare).2 name r added spare := by
  have inserted :=
    inserts_inserted r added { (s.forget name).2 with byName := (s.forget name).2.byName.insert name r }
  obtain ⟨byConn,opened,broken,made,byName,order,arrays,dialed,origin⟩ := inserted
  refine ⟨⟨byConn,opened,broken,made,byName,rfl,rfl,dialed,origin⟩,?_,?_⟩
  · exact congrArg₂ (fun a o => (Arrays.append a o r (List.replicate spare 0)).1) arrays order
  · exact congrArg₂ (fun a o => (Arrays.append a o r (List.replicate spare 0)).2) arrays order

theorem learn_byName (s : Chef) (name : GoString) (r : RecipeId) (added : List Conn) (spare : Nat) (name' : GoString) :
    (s.learn name r added spare).2.byName.get name' = if name' = name then some r else s.byName.get name' := by
  rw [(s.learn_learned name r added spare).inserted.byName,Map.get_insert,forget_byName]
  split <;> rfl

variable {slice : Slice} {i j : Nat}

theorem candidate_some (h : s.candidate slice i = some (r,j)) :
    i ≤ j ∧ (s.arrays.read slice)[j]? = some r ∧ (s.recipes r).allocate.isSome := by
  have slot := List.find?_some h
  obtain ⟨k,hk⟩ := List.mem_iff_getElem?.mp (List.mem_of_find?_eq_some h)
  rw [List.getElem?_drop,List.getElem?_zipIdx] at hk
  obtain ⟨r',hr,e⟩ := Option.map_eq_some_iff.mp hk
  cases e
  exact ⟨by omega,by simpa using hr,slot⟩

theorem candidate_mem (h : s.candidate slice i = some (r,j)) :
    r ∈ s.arrays.cells slice.array :=
  List.mem_of_mem_take (List.mem_of_getElem? (candidate_some h).2.1)

namespace Balanced
variable {s : Chef} {slots : RecipeId → Nat}

theorem learn {r : RecipeId} {added : List Conn} (h : s.Balanced (slots + Pi.single r added.length))
    (distinct : added.Nodup) (fresh : ∀ c ∈ added, s.byConn.get c = none) (made : r < s.made) (name : GoString)
    (spare : Nat) : (s.learn name r added spare).2.Balanced slots := by
  have forgot := h.forget name
  have start : Balanced { (s.forget name).2 with byName := (s.forget name).2.byName.insert name r }
      (slots + Pi.single r added.length) := forgot.frame rfl rfl rfl rfl forgot.cells
  have absent (c : Conn) (hc : c ∈ added) : (s.forget name).2.byConn.get c = none := by
    refine Option.eq_none_iff_forall_ne_some.mpr fun r hr => ?_
    exact absurd (forget_sub hr) (by simp [fresh c hc])
  refine (start.inserts distinct absent).appendOrder ?_ spare
  rw [(inserts_inserted r added _).made]
  exact (s.forget_dropped name).made.symm ▸ made

end Balanced
end Chef
end Pggat.Kitchen
