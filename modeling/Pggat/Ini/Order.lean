import Mathlib.Data.List.Forall2
import Pggat.Base.Loops
import Pggat.Ini.Set

/-! Which pairs of an INI text leave each other alone. -/
namespace Pggat.Ini
open Pggat.Base Pggat.Base.Reflect
variable {C : Type} (env : Env C)

/-- Two texts are read as different keys of a map, if both can be read. -/
def distinctKeys (k : KeyTy C) (key key' : GoString) : Bool :=
  match setKey env k key, setKey env k key' with
  | .ok a, .ok b => decide (a ≠ b)
  | _, _ => true

/-- There is nothing that `get` enters. -/
def closed : Ty C → Bool
  | .ptr _ => false
  | .custom _ t => closed t
  | .struct _ => false
  | .map _ _ => false
  | _ => true

/-- Two ways into a value are apart, have an entry of a map in common from which each goes on, or one is within the
other. -/
inductive Parting (C : Type) where
  | apart
  | entry (type : Ty C) (keys keys' : List GoString)
  | within

mutual

/-- Ways are apart if they part at different fields of a struct or at different entries of a map before either has
ended. A way that goes on where there is nothing to enter changes nothing. -/
def parting : Ty C → (keys keys' : List GoString) → Parting C
  | .ptr t, ks, ks' => parting t ks ks'
  | .custom _ t, k :: ks, k' :: ks' => parting t (k :: ks) (k' :: ks')
  | .struct fields, k :: ks, k' :: ks' => partingFields fields k ks k' ks'
  | .map key t, k :: ks, k' :: ks' => if distinctKeys env key k k' then .apart else .entry t ks ks'
  | t, ks, ks' => if closed t ∧ (ks ≠ [] ∨ ks' ≠ []) then .apart else .within

def partingFields : Fields C → (key : GoString) → (keys : List GoString) → (key' : GoString) → (keys' : List GoString) →
    Parting C
  | .nil, _, _, _, _ => .apart
  | .cons field t rest, k, ks, k', ks' =>
    if ¬ field.exported then partingFields rest k ks k' ks'
    else if field.called iniTag = catchAll then parting t (k :: ks) (k' :: ks')
    else if field.called iniTag = k ∧ field.called iniTag = k' then parting t ks ks'
    else if field.called iniTag = k ∨ field.called iniTag = k' then .apart
    else partingFields rest k ks k' ks'

end

/-- The value that a text gives where `v` stood. The pairs of a text for a struct or a map are assigned in turn. -/
def Reads : (t : Ty C) → (text : GoString) → (v w : t.Val env) → Prop
  | .scalar kind, x, _, w => Denotes env kind x w
  | .custom c t, x, v, w => env.unmarshal c t x v = some w
  | .other, _, _, _ => False
  | .ptr t, x, v, w => ∃ u, w = some u ∧ Reads t x (v.getD (t.zero env)) u
  | .slice t, x, _, w => List.Forall₂ (fun item u => Reads t (trimSpace item) (t.zero env) u) (splitAt 44 x) w
  | .array n t, x, v, w =>
    (splitAt 44 x).length = n ∧ ∀ i : Fin n, Reads t (trimSpace ((splitAt 44 x).getD i [])) (v i) (w i)
  | .struct fields, x, v, w => ∃ pairs : List (GoString × GoString), (Base.fields x).map (cut 61) = pairs.map some ∧
      pairs.foldlM (fun v p => access env [p.1] p.2 (.struct fields) v) v = .ok w
  | .map key t, x, v, w => ∃ pairs : List (GoString × GoString), (Base.fields x).map (cut 61) = pairs.map some ∧
      pairs.foldlM (fun v p => access env [p.1] p.2 (.map key t) v) v = .ok w

mutual

/-- What stands under a key is related to what stood there before. -/
def Got : (t : Ty C) → (key : GoString) → (rel : (t : Ty C) → (v w : t.Val env) → Prop) → (v w : t.Val env) → Prop
  | .ptr t, key, rel, v, w => ∃ u, w = some u ∧ Got t key rel (v.getD (t.zero env)) u
  | .custom _ t, key, rel, v, w => Got t key rel v w
  | .struct fields, key, rel, v, w => GotField fields key rel v w
  | .map k t, key, rel, _, w => ∃ i a, KeyDenotes env k key i ∧ w.bind (· i) = some a ∧ rel t (t.zero env) a
  | _, _, _, _, _ => True

def GotField : (fields : Fields C) → (key : GoString) → (rel : (t : Ty C) → (v w : t.Val env) → Prop) →
    (v w : fields.Val env) → Prop
  | .nil, _, _, _, _ => True
  | .cons field t rest, key, rel, (v,vs), (w,ws) =>
    if ¬ field.exported then GotField rest key rel vs ws
    else if field.called iniTag = catchAll then Got t key rel v w
    else if field.called iniTag = key then rel t v w
    else GotField rest key rel vs ws

end

/-- The place that the keys lead to, if there is one, holds the value that the text gives. -/
def Held : (keys : List GoString) → (value : GoString) → (t : Ty C) → (v w : t.Val env) → Prop
  | [], value, t, v, w => Reads env t value v w
  | key :: keys, value, t, v, w => Got env t key (Held keys value) v w

section
variable {env}

section
variable {fn : (t : Ty C) → t.Val env → Except Failure (t.Val env)} {rel : (t : Ty C) → (v w : t.Val env) → Prop}

theorem gotField_cons {field : Field} {t : Ty C} {rest : Fields C} {key : GoString} (v w : t.Val env.toCarriers)
    (vs ws : rest.Val env.toCarriers) : GotField env (.cons field t rest) key rel (v,vs) (w,ws) =
      if ¬ field.exported then GotField env rest key rel vs ws
      else if field.called iniTag = catchAll then Got env t key rel v w
      else if field.called iniTag = key then rel t v w
      else GotField env rest key rel vs ws := rfl

mutual

theorem get_got (h : ∀ t v w, fn t v = .ok w → rel t v w) : ∀ (t : Ty C) (key : GoString) (v w : t.Val env),
    get env t key fn v = .ok w → Got env t key rel v w
  | .ptr t, key, v, w, hw => by
    obtain ⟨u,hu,rfl⟩ := map_eq_ok.mp hw
    exact ⟨u,rfl,get_got h t key _ u hu⟩
  | .custom _ t, key, v, w, hw => get_got h t key v w hw
  | .struct fields, key, v, w, hw => getField_got h fields key v w hw
  | .map k t, key, v, w, hw => by
    obtain ⟨i,hi,hw⟩ := bind_eq_ok.mp hw
    obtain ⟨a,ha,hw⟩ := bind_eq_ok.mp hw
    cases hw
    exact ⟨i,a,setKey_iff.mp hi,Function.update_self ..,h t _ a ha⟩
  | .scalar _, _, _, _, _ => trivial
  | .other, _, _, _, _ => trivial
  | .slice _, _, _, _, _ => trivial
  | .array _ _, _, _, _, _ => trivial

theorem getField_got (h : ∀ t v w, fn t v = .ok w → rel t v w) : ∀ (fields : Fields C) (key : GoString)
    (v w : fields.Val env), getField env fields key fn v = .ok w → GotField env fields key rel v w
  | .nil, _, _, _, _ => trivial
  | .cons field t rest, key, (v,vs), (w,ws), hw => by
    rw [getField_cons] at hw
    rw [gotField_cons]
    split_ifs at hw ⊢ <;> obtain ⟨u,hu,same⟩ := map_eq_ok.mp hw <;> cases same
    · exact get_got h t key v _ hu
    · exact h t v _ hu
    · exact getField_got h rest key vs _ hu
    · exact getField_got h rest key vs _ hu

end
end

theorem access_ptr (ks : List GoString) (x : GoString) (t : Ty C) (v : (Ty.ptr t).Val env.toCarriers) :
    access env ks x (.ptr t) v = some <$> access env ks x t (v.getD (t.zero env)) := by
  cases ks <;> rfl

theorem held_ptr {ks : List GoString} {x : GoString} {t : Ty C} {v w : (Ty.ptr t).Val env.toCarriers} :
    Held env ks x (.ptr t) v w ↔ ∃ u, w = some u ∧ Held env ks x t (v.getD (t.zero env)) u := by
  cases ks <;> rfl

variable {key : KeyTy C} {t : Ty C} {k x : GoString} {ks : List GoString}

theorem access_map {v w : (Ty.map key t).Val env.toCarriers} :
    access env (k :: ks) x (.map key t) v = .ok w ↔
      ∃ i a, setKey env key k = .ok i ∧ access env ks x t (t.zero env) = .ok a ∧ setMapIndex v i a = w := by
  constructor
  · intro h
    obtain ⟨i,hi,h⟩ := bind_eq_ok.mp h
    obtain ⟨a,ha,h⟩ := bind_eq_ok.mp h
    exact ⟨i,a,hi,ha,Except.ok.inj h⟩
  · rintro ⟨i,a,hi,ha,rfl⟩
    exact bind_eq_ok.mpr ⟨i,hi,bind_eq_ok.mpr ⟨a,ha,rfl⟩⟩

/-- Steps that may change places, where neither undoes what the other has done. -/
structure Separate {α : Type} (H H' : α → α → Prop) (f g : α → Except Failure α) : Prop where
  swaps : Swaps f g
  left : ∀ v w w', H v w → g w = .ok w' → H v w'
  right : ∀ v w w', H' v w → f w = .ok w' → H' v w'

/-- Two steps that write to the same place, each without regard to what is there: the later one decides. -/
def Overwrites {α β : Type} (f g : α → Except Failure α) (x y : Except Failure β) : Prop :=
  ∀ v w, (f v >>= g) = .ok w → ∃ (a b : β) (place : β → α), x = .ok a ∧ y = .ok b ∧ Function.Injective place ∧
    w = place b ∧ (g v >>= f) = .ok (place a)

variable {α β : Type} {H H' : α → α → Prop} {f g : α → Except Failure α}

theorem Separate.symm (h : Separate H H' f g) : Separate H' H g f := ⟨h.swaps.symm,h.right,h.left⟩

theorem separate_ok (trivial : ∀ v w, H v w) : Separate H H' .ok g where
  swaps := (swaps_ok g).symm
  left v _ w' _ _ := trivial v w'
  right _ _ _ h same := Except.ok.inj same ▸ h

theorem separate_sides {H' : β → β → Prop} (f : α → Except Failure α) (g : β → Except Failure β) :
    Separate (fun v w : α × β => H v.1 w.1) (fun v w => H' v.2 w.2) (fun v => (·,v.2) <$> f v.1)
      (fun v => (v.1,·) <$> g v.2) where
  swaps := swaps_sides f g
  left _ _ _ h hw := by
    obtain ⟨_,-,rfl⟩ := map_eq_ok.mp hw
    exact h
  right _ _ _ h hw := by
    obtain ⟨_,-,rfl⟩ := map_eq_ok.mp hw
    exact h

section
variable (inside : β → α) (put : β → α → β)

/-- The relation of a part that is put in place. -/
structure Inside (H : α → α → Prop) (K : β → β → Prop) : Prop where
  of_whole : ∀ v w, K v w → H (inside v) (inside w)
  put : ∀ v w a, H (inside v) a → K v (put w a)

variable {inside put} {K K' : β → β → Prop} (inside_put : ∀ v a, inside (put v a) = a)
  (put_put : ∀ v a b, put (put v a) b = put v b)
include inside_put put_put

private theorem Separate.lift (h : Separate H H' f g) (hK : Inside inside put H K) (hK' : Inside inside put H' K') :
    Separate K K' (fun v => put v <$> f (inside v)) (fun v => put v <$> g (inside v)) where
  swaps := h.swaps.lift inside put inside_put put_put
  left v w w' hw hg := by
    obtain ⟨a,ha,rfl⟩ := map_eq_ok.mp hg
    exact hK.put v w a (h.left _ _ _ (hK.of_whole v w hw) ha)
  right v w w' hw hf := by
    obtain ⟨a,ha,rfl⟩ := map_eq_ok.mp hf
    exact hK'.put v w a (h.right _ _ _ (hK'.of_whole v w hw) ha)

private theorem Overwrites.lift {γ : Type} {x y : Except Failure γ} (h : Overwrites f g x y) :
    Overwrites (fun v => put v <$> f (inside v)) (fun v => put v <$> g (inside v)) x y := by
  intro v w hw
  simp only [bind_eq_ok,map_eq_ok] at hw
  obtain ⟨_,⟨u,hf,rfl⟩,u',hg,rfl⟩ := hw
  rw [inside_put] at hg
  obtain ⟨a,b,place,hx,hy,inj,rfl,hback⟩ := h (inside v) u' (bind_eq_ok.mpr ⟨u,hf,hg⟩)
  obtain ⟨u₁,hg₁,hf₁⟩ := bind_eq_ok.mp hback
  refine ⟨a,b,put v ∘ place,hx,hy,Function.Injective.comp (fun e e' he => ?_) inj,put_put _ _ _,?_⟩
  · rw [← inside_put v e,he,inside_put]
  · simp only [bind_eq_ok,map_eq_ok]
    exact ⟨put v u₁,⟨u₁,hg₁,rfl⟩,place a,by rw [inside_put]; exact hf₁,put_put _ _ _⟩

end

variable (env) in
/-- What the way of two assignments into a value says of the steps that make them. -/
def Parting.Spec (x x' : GoString) (H H' : α → α → Prop) (f g : α → Except Failure α) : Parting C → Prop
  | .apart => Separate H H' f g
  | .entry e r r' => Overwrites f g (access env r x e (e.zero env)) (access env r' x' e (e.zero env))
  | .within => True

variable {x' : GoString} {ks' : List GoString} {p : Parting C}

theorem Parting.Spec.lift {K K' : β → β → Prop} (h : p.Spec env x x' H H' f g) (inside : β → α) (put : β → α → β)
    (inside_put : ∀ v a, inside (put v a) = a) (put_put : ∀ v a b, put (put v a) b = put v b)
    (hK : Inside inside put H K) (hK' : Inside inside put H' K') :
    p.Spec env x x' K K' (fun v => put v <$> f (inside v)) (fun v => put v <$> g (inside v)) := by
  cases p with
  | apart => exact Separate.lift inside_put put_put h hK hK'
  | entry => exact Overwrites.lift inside_put put_put h
  | within => trivial

theorem Parting.Spec.head (h : p.Spec env x x' H H' f g) :
    p.Spec env x x' (fun v w : α × β => H v.1 w.1) (fun v w => H' v.1 w.1) (fun v => (·,v.2) <$> f v.1)
      (fun v => (·,v.2) <$> g v.1) :=
  h.lift Prod.fst (fun v a => (a,v.2)) (fun _ _ => rfl) (fun _ _ _ => rfl)
    ⟨fun _ _ => id,fun _ _ _ => id⟩ ⟨fun _ _ => id,fun _ _ _ => id⟩

theorem Parting.Spec.tail (h : p.Spec env x x' H H' f g) :
    p.Spec env x x' (fun v w : β × α => H v.2 w.2) (fun v w => H' v.2 w.2) (fun v => (v.1,·) <$> f v.2)
      (fun v => (v.1,·) <$> g v.2) :=
  h.lift Prod.snd (fun v a => (v.1,a)) (fun _ _ => rfl) (fun _ _ _ => rfl)
    ⟨fun _ _ => id,fun _ _ _ => id⟩ ⟨fun _ _ => id,fun _ _ _ => id⟩

private theorem get_closed : ∀ (t : Ty C), closed t = true → ∀ key fn, get env t key fn = .ok
  | .custom _ t, h, key, fn => get_closed t h key fn
  | .scalar _, _, _, _ => rfl
  | .other, _, _, _ => rfl
  | .slice _, _, _, _ => rfl
  | .array _ _, _, _, _ => rfl

private theorem got_closed : ∀ (t : Ty C), closed t = true → ∀ key rel v w, Got env t key rel v w
  | .custom _ t, h, key, rel, v, w => got_closed t h key rel v w
  | .scalar _, _, _, _, _, _ => trivial
  | .other, _, _, _, _, _ => trivial
  | .slice _, _, _, _, _, _ => trivial
  | .array _ _, _, _, _, _, _ => trivial

/-- Where nothing can be entered, one of two ways changes nothing unless both end there. -/
theorem outside_parting (t : Ty C) (ks ks' : List GoString) (x x' : GoString) :
    Parting.Spec env x x' (Held env ks x t) (Held env ks' x' t) (access env ks x t) (access env ks' x' t)
      (if closed t ∧ (ks ≠ [] ∨ ks' ≠ []) then .apart else .within) := by
  split
  · rename_i h
    have none' (k : GoString) (ks : List GoString) (x : GoString) : access env (k :: ks) x t = .ok := get_closed t h.1 k _
    cases ks with
    | cons k ks =>
      rw [none']
      exact separate_ok (got_closed t h.1 k _)
    | nil =>
      cases ks' with
      | cons k' ks' =>
        rw [none']
        exact (separate_ok (got_closed t h.1 k' _)).symm
      | nil => simp at h
  · trivial

private theorem swaps_entries {k' : GoString}
    (distinct : ∀ i j, setKey env key k = .ok i → setKey env key k' = .ok j → i ≠ j) :
    Swaps (access env (k :: ks) x (.map key t)) (access env (k' :: ks') x' (.map key t)) := by
  have turn {k k' x x' : GoString} {ks ks' : List GoString} {v w : (Ty.map key t).Val env.toCarriers}
      (distinct : ∀ i j, setKey env key k = .ok i → setKey env key k' = .ok j → i ≠ j)
      (hw : (access env (k :: ks) x (.map key t) v >>= access env (k' :: ks') x' (.map key t)) = .ok w) :
      (access env (k' :: ks') x' (.map key t) v >>= access env (k :: ks) x (.map key t)) = .ok w := by
    obtain ⟨u,hu,hw⟩ := bind_eq_ok.mp hw
    obtain ⟨i,a,hi,ha,rfl⟩ := access_map.mp hu
    obtain ⟨j,b,hj,hb,rfl⟩ := access_map.mp hw
    refine bind_eq_ok.mpr ⟨_,access_map.mpr ⟨j,b,hj,hb,rfl⟩,access_map.mpr ⟨i,a,hi,ha,?_⟩⟩
    exact congrArg some (Function.update_comm (distinct i j hi hj).symm _ _ _)
  exact fun v w => ⟨turn distinct,turn fun i j hi hj => (distinct j i hj hi).symm⟩

private theorem held_entry {k' : GoString}
    (distinct : ∀ i j, setKey env key k = .ok i → setKey env key k' = .ok j → i ≠ j)
    {v w w' : (Ty.map key t).Val env.toCarriers} (h : Held env (k :: ks) x (.map key t) v w)
    (hw : access env (k' :: ks') x' (.map key t) w = .ok w') : Held env (k :: ks) x (.map key t) v w' := by
  obtain ⟨i,a,hi,ha,held⟩ := h
  obtain ⟨j,b,hj,-,rfl⟩ := access_map.mp hw
  refine ⟨i,a,hi,?_,held⟩
  obtain ⟨m,rfl,hm⟩ := Option.bind_eq_some_iff.mp ha
  exact (Function.update_of_ne (distinct i j (setKey_iff.mpr hi) hj) _ _).trans hm

theorem entries_parting {k' : GoString} :
    Parting.Spec env x x' (Held env (k :: ks) x (.map key t)) (Held env (k' :: ks') x' (.map key t))
      (access env (k :: ks) x (.map key t)) (access env (k' :: ks') x' (.map key t))
      (if distinctKeys env key k k' then .apart else .entry t ks ks') := by
  split
  · rename_i h
    have distinct (i j : key.Val env.toCarriers) (hi : setKey env key k = .ok i) (hj : setKey env key k' = .ok j) :
        i ≠ j := by
      simpa [distinctKeys,hi,hj] using h
    exact ⟨swaps_entries distinct,fun _ _ _ => held_entry distinct,
      fun _ _ _ => held_entry fun i j hi hj => (distinct j i hj hi).symm⟩
  · rename_i same
    intro v w hw
    obtain ⟨u,hu,hw⟩ := bind_eq_ok.mp hw
    obtain ⟨i,a,hi,ha,rfl⟩ := access_map.mp hu
    obtain ⟨j,b,hj,hb,rfl⟩ := access_map.mp hw
    have hij : i = j := by simpa [distinctKeys,hi,hj] using same
    subst hij
    have again (a b : t.Val env.toCarriers) : setMapIndex (setMapIndex v i a) i b = setMapIndex v i b :=
      congrArg some (Function.update_idem _ _ _)
    refine ⟨a,b,setMapIndex v i,ha,hb,fun a b h => ?_,again a b,bind_eq_ok.mpr ⟨_,access_map.mpr ⟨i,b,hj,hb,rfl⟩,
      access_map.mpr ⟨i,a,hi,ha,again b a⟩⟩⟩
    exact Option.some.inj (Function.update_injective _ i (Option.some.inj h))

section
variable {rel : (t : Ty C) → (v w : t.Val env) → Prop} {field : Field} {rest : Fields C}

theorem gotField_later (h : ¬ field.exported ∨ field.called iniTag ≠ catchAll ∧ field.called iniTag ≠ k) :
    GotField env (.cons field t rest) k rel = fun v w => GotField env rest k rel v.2 w.2 := by
  funext ⟨v,vs⟩ ⟨w,ws⟩
  rw [gotField_cons]
  by_cases he : field.exported
  · obtain ⟨hc,hk⟩ := h.resolve_left (not_not.mpr he)
    rw [if_neg (not_not.mpr he),if_neg hc,if_neg hk]
  · rw [if_pos he]

theorem gotField_inside (he : field.exported) (hc : field.called iniTag = catchAll) :
    GotField env (.cons field t rest) k rel = fun v w => Got env t k rel v.1 w.1 := by
  funext ⟨v,vs⟩ ⟨w,ws⟩
  rw [gotField_cons,if_neg (not_not.mpr he),if_pos hc]

theorem gotField_here (he : field.exported) (hc : field.called iniTag ≠ catchAll) (hk : field.called iniTag = k) :
    GotField env (.cons field t rest) k rel = fun v w => rel t v.1 w.1 := by
  funext ⟨v,vs⟩ ⟨w,ws⟩
  rw [gotField_cons,if_neg (not_not.mpr he),if_neg hc,if_pos hk]

end

theorem partingFields_cons (field : Field) (t : Ty C) (rest : Fields C) (k : GoString) (ks : List GoString) (k' : GoString)
    (ks' : List GoString) : partingFields env (.cons field t rest) k ks k' ks' =
      if ¬ field.exported then partingFields env rest k ks k' ks'
      else if field.called iniTag = catchAll then parting env t (k :: ks) (k' :: ks')
      else if field.called iniTag = k ∧ field.called iniTag = k' then parting env t ks ks'
      else if field.called iniTag = k ∨ field.called iniTag = k' then .apart
      else partingFields env rest k ks k' ks' := rfl

mutual

theorem access_parting : ∀ (t : Ty C) (ks ks' : List GoString) (x x' : GoString),
    (parting env t ks ks').Spec env x x' (Held env ks x t) (Held env ks' x' t) (access env ks x t) (access env ks' x' t)
  | .ptr t, ks, ks', x, x' => by
    have pointed (ks : List GoString) (x : GoString) : Inside (fun v : Option (t.Val env.toCarriers) => v.getD (t.zero env))
        (fun _ => some) (Held env ks x t) (Held env ks x (.ptr t)) := by
      refine ⟨fun v w h => ?_,fun v w a h => held_ptr.mpr ⟨a,rfl,h⟩⟩
      obtain ⟨u,rfl,held⟩ := held_ptr.mp h
      exact held
    have inner := (access_parting t ks ks' x x').lift _ (fun _ => some) (fun _ _ => rfl) (fun _ _ _ => rfl)
      (pointed ks x) (pointed ks' x')
    exact (funext (access_ptr ks x t)) ▸ (funext (access_ptr ks' x' t)) ▸ inner
  | .custom _ t, k :: ks, k' :: ks', x, x' => access_parting t (k :: ks) (k' :: ks') x x'
  | .struct fields, k :: ks, k' :: ks', x, x' => getField_parting fields k ks k' ks' x x'
  | .map _ _, _ :: _, _ :: _, _, _ => entries_parting
  | .custom _ _, [], _, _, _ => outside_parting ..
  | .custom _ _, _ :: _, [], _, _ => outside_parting ..
  | .struct _, [], _, _, _ => outside_parting ..
  | .struct _, _ :: _, [], _, _ => outside_parting ..
  | .map _ _, [], _, _, _ => outside_parting ..
  | .map _ _, _ :: _, [], _, _ => outside_parting ..
  | .scalar _, _, _, _, _ => outside_parting ..
  | .other, _, _, _, _ => outside_parting ..
  | .slice _, _, _, _, _ => outside_parting ..
  | .array _ _, _, _, _, _ => outside_parting ..

theorem getField_parting : ∀ (fields : Fields C) (k : GoString) (ks : List GoString) (k' : GoString) (ks' : List GoString)
    (x x' : GoString), (partingFields env fields k ks k' ks').Spec env x x' (GotField env fields k (Held env ks x))
      (GotField env fields k' (Held env ks' x')) (getField env fields k (access env ks x))
      (getField env fields k' (access env ks' x'))
  | .nil, _, _, _, _, _, _ => separate_ok fun _ _ => trivial
  | .cons field t rest, k, ks, k', ks', x, x' => by
    rw [partingFields_cons]
    by_cases he : field.exported
    · rw [if_neg (not_not.mpr he)]
      by_cases hc : field.called iniTag = catchAll
      · rw [if_pos hc,getField_inside he hc,getField_inside he hc,gotField_inside he hc,gotField_inside he hc]
        exact (access_parting t (k :: ks) (k' :: ks') x x').head
      rw [if_neg hc]
      by_cases hk : field.called iniTag = k <;> by_cases hk' : field.called iniTag = k'
      · rw [if_pos ⟨hk,hk'⟩,getField_here he hc hk,getField_here he hc hk',gotField_here he hc hk,
          gotField_here he hc hk']
        exact (access_parting t ks ks' x x').head
      · rw [if_neg fun h => hk' h.2,if_pos (.inl hk),getField_here he hc hk,getField_later (.inr ⟨hc,hk'⟩),
          gotField_here he hc hk,gotField_later (.inr ⟨hc,hk'⟩)]
        exact separate_sides _ _
      · rw [if_neg fun h => hk h.1,if_pos (.inr hk'),getField_later (.inr ⟨hc,hk⟩),getField_here he hc hk',
          gotField_later (.inr ⟨hc,hk⟩),gotField_here he hc hk']
        exact (separate_sides _ _).symm
      · rw [if_neg fun h => hk h.1,if_neg (not_or.mpr ⟨hk,hk'⟩),getField_later (.inr ⟨hc,hk⟩),
          getField_later (.inr ⟨hc,hk'⟩),gotField_later (.inr ⟨hc,hk⟩),gotField_later (.inr ⟨hc,hk'⟩)]
        exact (getField_parting rest k ks k' ks' x x').tail
    · rw [if_pos he,getField_later (.inl he),getField_later (.inl he),gotField_later (.inl he),
        gotField_later (.inl he)]
      exact (getField_parting rest k ks k' ks' x x').tail

end

end

def plainEnv : Env Empty where
  Float _ := Unit
  decEq _ := inferInstanceAs (DecidableEq Unit)
  zeroFloat _ := ()
  Key := nofun
  decEqKey := nofun
  parseFloat _ _ := none
  readKey := nofun
  unmarshal := nofun

def sections : Ty Empty :=
  .map (.scalar .string) (.struct (.cons ⟨ascii ['a'],true,[]⟩ (.scalar .string) (.cons ⟨ascii ['b'],true,[]⟩ (.scalar .string) .nil)))

end Pggat.Ini
