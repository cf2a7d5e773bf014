import Pggat.Base.Reflect
import Pggat.Ini.Unmarshal

/-! How a text is read into a value of any type: `get`, `set` and `setpath`. -/
namespace Pggat.Ini
open Pggat.Base Pggat.Base.Reflect
variable {C : Type} (env : Env C)

/-- `set` on a string or a number, which is parsed with 64 bits and then cut to the width of the field. -/
def setScalar : (kind : ScalarKind) → GoString → Except Failure (kind.Val env.toCarriers)
  | .string, value => .ok value
  | .bool, _ => .error .cannotSet
  | .int w, value =>
    match atoi value with
    | none => .error .number
    | some n => .ok (BitVec.ofInt w.bits n)
  | .uint w, value =>
    match parseUint value with
    | none => .error .number
    | some n => .ok (BitVec.ofNat w.bits n)
  | .float double, value =>
    match env.parseFloat double value with
    | none => .error .number
    | some x => .ok x

def setKey : (key : KeyTy C) → GoString → Except Failure (key.Val env)
  | .scalar kind, value => setScalar env kind value
  | .custom c, value =>
    match env.readKey c value with
    | none => .error .unmarshaller
    | some k => .ok k

/-- What a text means as a string or a number. -/
def Denotes : (kind : ScalarKind) → (text : GoString) → kind.Val env.toCarriers → Prop
  | .string, x, v => v = x
  | .bool, _, _ => False
  | .int w, x, v => ∃ n, atoi x = some n ∧ v = BitVec.ofInt w.bits n
  | .uint w, x, v => ∃ n, parseUint x = some n ∧ v = BitVec.ofNat w.bits n
  | .float double, x, v => ∃ y, env.parseFloat double x = some y ∧ v = y

def KeyDenotes : (key : KeyTy C) → (text : GoString) → key.Val env → Prop
  | .scalar kind, x, k => Denotes env kind x k
  | .custom c, x, k => ∃ i, env.readKey c x = some i ∧ k = i

private theorem error_iff {α β : Type} {e : Failure} {f : α → β} {b : β} :
    Except.error e = .ok b ↔ ∃ a, none = some a ∧ b = f a := by simp

private theorem ok_iff {α β : Type} {a : α} {f : α → β} {b : β} :
    (Except.ok (f a) : Except Failure β) = .ok b ↔ ∃ a', some a = some a' ∧ b = f a' := by simp [eq_comm]

section
variable {env}

theorem setScalar_iff {kind : ScalarKind} {x : GoString} {v : kind.Val env.toCarriers} :
    setScalar env kind x = .ok v ↔ Denotes env kind x v := by
  cases kind with
  | string => exact ⟨fun h => (Except.ok.inj h).symm,fun h => congrArg Except.ok (Eq.symm h)⟩
  | bool => exact ⟨nofun,nofun⟩
  | int w =>
    rw [setScalar,Denotes]
    cases atoi x with
    | none => exact error_iff
    | some n => exact ok_iff
  | uint w =>
    rw [setScalar,Denotes]
    cases parseUint x with
    | none => exact error_iff
    | some n => exact ok_iff
  | float double =>
    rw [setScalar,Denotes]
    cases env.parseFloat double x with
    | none => exact error_iff
    | some y => exact ok_iff (f := id)

theorem setKey_iff {key : KeyTy C} {x : GoString} {k : key.Val env.toCarriers} :
    setKey env key x = .ok k ↔ KeyDenotes env key x k := by
  cases key with
  | scalar kind => exact setScalar_iff
  | custom c =>
    rw [setKey,KeyDenotes]
    cases env.readKey c x with
    | none => exact error_iff
    | some i => exact ok_iff (f := id)

end

/-- The kinds that `set` takes, methods or not. -/
def settable : Ty C → Bool
  | .scalar .bool => false
  | .other => false
  | _ => true

/-- `*` -/
def catchAll : GoString := [42]

def iniTag : GoString := ascii ['i', 'n', 'i']

mutual

/-- `set` -/
def set : (t : Ty C) → (value : GoString) → t.Val env → Except Failure (t.Val env)
  | .scalar kind, value, _ => setScalar env kind value
  | .custom c t, value, v =>
    if settable t then
      match env.unmarshal c t value v with
      | none => .error .unmarshaller
      | some v => .ok v
    else .error .cannotSet
  | .other, _, _ => .error .cannotSet
  | .ptr t, value, v => some <$> set t value (v.getD (t.zero env))
  | .slice t, value, _ => (splitAt 44 value).mapM fun item => set t (trimSpace item) (t.zero env)
  | .array n t, value, v =>
    let items := splitAt 44 value
    if items.length ≠ n then .error .wrongLength
    else sequence fun i => set t (trimSpace (items.getD i [])) (v i)
  | .struct fields, value, v =>
    (Base.fields value).foldlM (fun v field =>
      match cut 61 field with
      | none => .error .expectedPair
      | some (key,value) => assignField fields key value v) v
  | .map k t, value, v =>
    (Base.fields value).foldlM (fun v field =>
      match cut 61 field with
      | none => .error .expectedPair
      | some (key,value) => do
        let key ← setKey env k key
        let elem ← set t value (t.zero env)
        return setMapIndex v key elem) v

/-- `get` with the `set` of a value as the function. -/
def assign : (t : Ty C) → (key value : GoString) → t.Val env → Except Failure (t.Val env)
  | .ptr t, key, value, v => some <$> assign t key value (v.getD (t.zero env))
  | .custom _ t, key, value, v => assign t key value v
  | .struct fields, key, value, v => assignField fields key value v
  | .map k t, key, value, v => do
    let key ← setKey env k key
    let elem ← set t value (t.zero env)
    return setMapIndex v key elem
  | _, _, _, v => .ok v

def assignField : (fields : Fields C) → (key value : GoString) → fields.Val env → Except Failure (fields.Val env)
  | .nil, _, _, v => .ok v
  | .cons field t rest, key, value, (v,vs) =>
    if ¬ field.exported then (v,·) <$> assignField rest key value vs
    else if field.called iniTag = catchAll then (·,vs) <$> assign t key value v
    else if field.called iniTag = key then (·,vs) <$> set t value v
    else (v,·) <$> assignField rest key value vs

end

mutual

/-- `get` -/
def get : (t : Ty C) → (key : GoString) → (fn : (t : Ty C) → t.Val env → Except Failure (t.Val env)) → t.Val env →
    Except Failure (t.Val env)
  | .ptr t, key, fn, v => some <$> get t key fn (v.getD (t.zero env))
  | .custom _ t, key, fn, v => get t key fn v
  | .struct fields, key, fn, v => getField fields key fn v
  | .map k t, key, fn, v => do
    let key ← setKey env k key
    let elem ← fn t (t.zero env)
    return setMapIndex v key elem
  | _, _, _, v => .ok v

/-- The loop of `get` over the fields of a struct. -/
def getField : (fields : Fields C) → (key : GoString) → (fn : (t : Ty C) → t.Val env → Except Failure (t.Val env)) →
    fields.Val env → Except Failure (fields.Val env)
  | .nil, _, _, v => .ok v
  | .cons field t rest, key, fn, (v,vs) =>
    if ¬ field.exported then (v,·) <$> getField rest key fn vs
    else if field.called iniTag = catchAll then (·,vs) <$> get t key fn v
    else if field.called iniTag = key then (·,vs) <$> fn t v
    else (v,·) <$> getField rest key fn vs

end

def setpath (t : Ty C) (v : t.Val env) (sec key value : GoString) : Except Failure (t.Val env) :=
  if sec = [] then get env t key (fun t => set env t value) v
  else get env t sec (fun t => get env t key fun t => set env t value) v

section
variable {env} {t : Ty C} {rest : Fields C} {field : Field} {key value : GoString}
  {fn : (t : Ty C) → t.Val env → Except Failure (t.Val env)}

theorem getField_cons (v : t.Val env.toCarriers) (vs : rest.Val env.toCarriers) :
    getField env (.cons field t rest) key fn (v,vs) =
      if ¬ field.exported then (v,·) <$> getField env rest key fn vs
      else if field.called iniTag = catchAll then (·,vs) <$> get env t key fn v
      else if field.called iniTag = key then (·,vs) <$> fn t v
      else (v,·) <$> getField env rest key fn vs := rfl

/-- The loop over the fields passes a field by, goes into it, or ends at it. -/
theorem getField_later (h : ¬ field.exported ∨ field.called iniTag ≠ catchAll ∧ field.called iniTag ≠ key) :
    getField env (.cons field t rest) key fn = fun v => (v.1,·) <$> getField env rest key fn v.2 := by
  funext ⟨v,vs⟩
  rw [getField_cons]
  by_cases he : field.exported
  · obtain ⟨hc,hk⟩ := h.resolve_left (not_not.mpr he)
    rw [if_neg (not_not.mpr he),if_neg hc,if_neg hk]
  · rw [if_pos he]

theorem getField_inside (he : field.exported) (hc : field.called iniTag = catchAll) :
    getField env (.cons field t rest) key fn = fun v => (·,v.2) <$> get env t key fn v.1 := by
  funext ⟨v,vs⟩
  rw [getField_cons,if_neg (not_not.mpr he),if_pos hc]

theorem getField_here (he : field.exported) (hc : field.called iniTag ≠ catchAll) (hk : field.called iniTag = key) :
    getField env (.cons field t rest) key fn = fun v => (·,v.2) <$> fn t v.1 := by
  funext ⟨v,vs⟩
  rw [getField_cons,if_neg (not_not.mpr he),if_neg hc,if_pos hk]

end

mutual

theorem assign_eq : ∀ (t : Ty C) (key value : GoString) (v : t.Val env),
    assign env t key value v = get env t key (fun t => set env t value) v
  | .ptr t, key, value, v => by
    show some <$> assign env t key value _ = _
    rw [assign_eq t]
    rfl
  | .struct fields, key, value, v => assignField_eq fields key value v
  | .map _ _, _, _, _ => rfl
  | .scalar _, _, _, _ => rfl
  | .custom _ t, key, value, v => assign_eq t key value v
  | .other, _, _, _ => rfl
  | .slice _, _, _, _ => rfl
  | .array _ _, _, _, _ => rfl

theorem assignField_eq : ∀ (fields : Fields C) (key value : GoString) (v : fields.Val env),
    assignField env fields key value v = getField env fields key (fun t => set env t value) v
  | .nil, _, _, _ => rfl
  | .cons field t rest, key, value, (v,vs) => by
    rw [getField_cons,← assign_eq t,← assignField_eq rest]
    rfl

end

/-- The keys that lead to an entry, and the value that it is set to. -/
def access : (keys : List GoString) → (value : GoString) → (t : Ty C) → t.Val env → Except Failure (t.Val env)
  | [], value, t, v => set env t value v
  | key :: keys, value, t, v => get env t key (access keys value) v

def Assignment.keys (a : Assignment) : List GoString := if a.sec = [] then [a.key] else [a.sec, a.key]

end Pggat.Ini
