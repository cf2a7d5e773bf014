import Mathlib.Logic.Function.Basic
import Pggat.Ini.Integers
import Pggat.Ini.Order

/-! How `gsql` reads the columns of a result into a value of any type: `setColumn`. -/
namespace Pggat.Gsql
open Pggat.Base Pggat.Base.Reflect
open Pggat.Ini (integral accepted fits denotes Stored)

inductive Failure where
  | resultTooBig
  | extraFields
  | resultMustBeNonNil
  | unexpectedType
  | number
  deriving DecidableEq, Repr

variable (env : Env Empty)

/-- A place in a value of type `V`, with what it holds and what the whole value is with something else in it. -/
structure Cell (V : Type) where
  type : Ty Empty
  value : type.Val env
  settable : Bool
  put : type.Val env → V

/-- A place inside of a place. -/
def Cell.inside {V : Type} (outer : Cell env V) (inner : Cell env (outer.type.Val env)) : Cell env V :=
  { inner with put := outer.put ∘ inner.put }

/-- Where a column goes, or the value as it is if its name is none of the fields. -/
inductive Selected (V : Type) where
  | ignored (v : V)
  | cell (c : Cell env V)

/-- The loop that leaves the pointers behind. -/
def unptr : (t : Ty Empty) → (settable : Bool) → t.Val env → Except Failure (Cell env (t.Val env))
  | .ptr t, settable, v =>
    if v.isNone ∧ ¬ settable then .error .resultMustBeNonNil
    else (fun c => { c with put := some ∘ c.put }) <$> unptr t true (v.getD (t.zero env))
  | t, settable, v => .ok ⟨t,v,settable,id⟩

/-- A slice after zeros were appended to it until it has the row. -/
def extended {V : Type} (zero : V) (row : Nat) (rows : List V) : List V :=
  rows ++ List.replicate (row + 1 - rows.length) zero

/-- `get row` -/
def getRow (row : Nat) : (t : Ty Empty) → (settable : Bool) → t.Val env → Except Failure (Cell env (t.Val env))
  | .array n t, settable, v =>
    if h : row < n then .ok ⟨t,v ⟨row,h⟩,settable,Function.update v ⟨row,h⟩⟩ else .error .resultTooBig
  | .slice t, settable, v =>
    if v.length ≤ row ∧ ¬ settable then .error .resultTooBig
    else
      let rows := extended (t.zero env.toCarriers) row v
      .ok ⟨t,rows.getD row (t.zero env),true,rows.set row⟩
  | .struct fields, settable, v => if row ≠ 0 then .error .resultTooBig else .ok ⟨.struct fields,v,settable,id⟩
  | .map key t, settable, v => if row ≠ 0 then .error .resultTooBig else .ok ⟨.map key t,v,settable,id⟩
  | _, _, _ => .error .unexpectedType

def sqlTag : GoString := ascii ['s', 'q', 'l']

/-- The first exported field that is called as the column, or by its number. -/
def findField (name : GoString) (i : Nat) (settable : Bool) : (fields : Fields Empty) → fields.Val env →
    Option (Cell env (fields.Val env))
  | .nil, _ => none
  | .cons field t rest, (v,vs) =>
    if field.exported ∧ (field.called sqlTag = name ∨ atoi (field.called sqlTag) = some (i : Int)) then
      some ⟨t,v,settable,(·,vs)⟩
    else (findField name i settable rest vs).map fun c => { c with put := fun u => (v,c.put u) }

/-- `get field` -/
def getField (name : GoString) (i : Nat) : (t : Ty Empty) → (settable : Bool) → t.Val env →
    Except Failure (Selected env (t.Val env))
  | .struct fields, settable, v =>
    match findField env name i settable fields v with
    | none => .ok (.ignored v)
    | some c => .ok (.cell c)
  | .map (.scalar .string) t, settable, m =>
    if m.isNone ∧ ¬ settable then .error .resultMustBeNonNil
    else .ok (.cell ⟨t,t.zero env,true,setMapIndex m name⟩)
  | _, _, _ => .error .unexpectedType

/-- The part of `setColumn` that finds the place; `rd` are the names of the columns. -/
def select (rd : List GoString) (row i : Nat) (t : Ty Empty) (v : t.Val env) :
    Except Failure (Selected env (t.Val env)) :=
  match rd[i]? with
  | none => .error .extraFields
  | some name => do
    let result ← unptr env t false v
    let elem ← getRow env row result.type result.settable result.value
    let elem := result.inside env elem
    let record ← unptr env elem.type elem.settable elem.value
    let record := elem.inside env record
    match ← getField env name i record.type record.settable record.value with
    | .ignored u => return .ignored (record.put u)
    | .cell c => return .cell (record.inside env c)

def setScalar : (kind : ScalarKind) → GoString → Except Failure (kind.Val env.toCarriers)
  | .string, col => .ok col
  | .uint w, col =>
    match parseUint col with
    | none => .error .number
    | some x => .ok (BitVec.ofNat w.bits x)
  | .int w, col =>
    match atoi col with
    | none => .error .number
    | some x => .ok (BitVec.ofInt w.bits x)
  | .float double, col =>
    match env.parseFloat double col with
    | none => .error .number
    | some x => .ok x
  | .bool, col =>
    if col = [102] then .ok false
    else if col = [116] then .ok true
    else .error .unexpectedType

/-- A column that is not null goes behind the pointers. -/
def set (col : GoString) : (t : Ty Empty) → t.Val env → Except Failure (t.Val env)
  | .ptr t, v => some <$> set col t (v.getD (t.zero env))
  | .scalar kind, _ => setScalar env kind col
  | _, _ => .error .unexpectedType

def store : (col : Option GoString) → (t : Ty Empty) → t.Val env → Except Failure (t.Val env)
  | none, .ptr _, _ => .ok none
  | none, _, _ => .error .unexpectedType
  | some col, t, v => set env col t v

/-- `setColumn` -/
def setColumn (rd : List GoString) (row i : Nat) (col : Option GoString) (t : Ty Empty) (v : t.Val env) :
    Except Failure (t.Val env) := do
  match ← select env rd row i t v with
  | .ignored v => return v
  | .cell c => if c.settable then c.put <$> store env col c.type c.value else .error .unexpectedType

def pointed : Ty Empty → Bool
  | .scalar _ => true
  | .ptr t => pointed t
  | _ => false

section
variable {env} {V : Type} {t : Ty Empty} {text : GoString}

/-- Different contents of the place are different values. -/
def Cell.Exact (c : Cell env V) : Prop := Function.Injective c.put

theorem Cell.Exact.inside {outer : Cell env V} {inner : Cell env (outer.type.Val env)} (ho : outer.Exact)
    (hi : inner.Exact) : (outer.inside env inner).Exact := ho.comp hi

theorem unptr_exact : ∀ (t : Ty Empty) (settable : Bool) (v : t.Val env) (c : Cell env (t.Val env)),
    unptr env t settable v = .ok c → c.Exact
  | .ptr t, settable, v, c, h => by
    change (if v.isNone ∧ ¬ settable then Except.error Failure.resultMustBeNonNil
      else (fun c => { c with put := some ∘ c.put }) <$> unptr env t true (v.getD (t.zero env))) = .ok c at h
    split at h
    · cases h
    · obtain ⟨c',hc,rfl⟩ := map_eq_ok.mp h
      exact (Option.some_injective _).comp (unptr_exact t _ _ c' hc)
  | .scalar _, _, _, _, h => Except.ok.inj h ▸ Function.injective_id
  | .other, _, _, _, h => Except.ok.inj h ▸ Function.injective_id
  | .slice _, _, _, _, h => Except.ok.inj h ▸ Function.injective_id
  | .array _ _, _, _, _, h => Except.ok.inj h ▸ Function.injective_id
  | .struct _, _, _, _, h => Except.ok.inj h ▸ Function.injective_id
  | .map _ _, _, _, _, h => Except.ok.inj h ▸ Function.injective_id

variable {α : Type}

private theorem set_injective {l : List α} {n : Nat} (h : n < l.length) : Function.Injective (l.set n) := by
  intro x y hxy
  have := congrArg (·[n]?) hxy
  simpa [h] using this

private theorem lt_length_extended (zero : α) (row : Nat) (rows : List α) :
    row < (extended zero row rows).length := by
  rw [extended,List.length_append,List.length_replicate]
  omega

variable {row : Nat}

theorem getRow_exact : ∀ (t : Ty Empty) (settable : Bool) (v : t.Val env) (c : Cell env (t.Val env)),
    getRow env row t settable v = .ok c → c.Exact
  | .array n t, settable, v, c, h => by
    change (if h : row < n then Except.ok _ else Except.error Failure.resultTooBig) = .ok c at h
    split at h
    · rename_i hrow
      cases h
      exact Function.update_injective v (⟨row,hrow⟩ : Fin n)
    · cases h
  | .slice t, settable, v, c, h => by
    change (if v.length ≤ row ∧ ¬ settable then Except.error Failure.resultTooBig else Except.ok _) = .ok c at h
    split at h
    · cases h
    · cases h
      exact set_injective (lt_length_extended _ row v)
  | .struct fields, settable, v, c, h => by
    change (if row ≠ 0 then Except.error Failure.resultTooBig else Except.ok _) = .ok c at h
    split at h
    · cases h
    · cases h
      exact Function.injective_id
  | .map key t, settable, v, c, h => by
    change (if row ≠ 0 then Except.error Failure.resultTooBig else Except.ok _) = .ok c at h
    split at h
    · cases h
    · cases h
      exact Function.injective_id

variable {name : GoString} {i : Nat}

private theorem findField_exact {settable : Bool} : ∀ (fields : Fields Empty) (v : fields.Val env)
    (c : Cell env (fields.Val env)), findField env name i settable fields v = some c → c.Exact
  | .cons field t rest, (v,vs), c, h => by
    change (if field.exported ∧ (field.called sqlTag = name ∨ atoi (field.called sqlTag) = some (i : Int)) then some _
      else (findField env name i settable rest vs).map _) = some c at h
    split at h
    · cases h
      exact Prod.mk_left_injective vs
    · obtain ⟨c',hc,rfl⟩ := Option.map_eq_some_iff.mp h
      exact (Prod.mk_right_injective v).comp (findField_exact rest vs c' hc)

private theorem getField_exact : ∀ (t : Ty Empty) (settable : Bool) (v : t.Val env)
    (c : Cell env (t.Val env)), getField env name i t settable v = .ok (.cell c) → c.Exact
  | .struct fields, settable, v, c, h => by
    cases hf : findField env name i settable fields v with
    | none =>
      rw [getField,hf] at h
      cases h
    | some c' =>
      rw [getField,hf] at h
      cases h
      exact findField_exact fields v c hf
  | .map (.scalar .string) t, settable, m, c, h => by
    change (if m.isNone ∧ ¬ settable then Except.error Failure.resultMustBeNonNil else Except.ok _) = .ok _ at h
    split at h
    · cases h
    · cases h
      exact (Option.some_injective _).comp ((Function.update_injective _ _).comp (Option.some_injective _))

variable {rd : List GoString} {v : t.Val env} {c : Cell env (t.Val env)}

theorem select_exact
    (h : select env rd row i t v = .ok (.cell c)) : c.Exact := by
  rw [select] at h
  split at h
  · cases h
  · obtain ⟨result,hresult,h⟩ := bind_eq_ok.mp h
    obtain ⟨elem,helem,h⟩ := bind_eq_ok.mp h
    obtain ⟨record,hrecord,h⟩ := bind_eq_ok.mp h
    obtain ⟨selected,hselected,h⟩ := bind_eq_ok.mp h
    cases selected with
    | ignored u => cases h
    | cell c' =>
      cases h
      exact (((unptr_exact _ _ _ _ hresult).inside (getRow_exact _ _ _ _ helem)).inside
        (unptr_exact _ _ _ _ hrecord)).inside (getField_exact _ _ _ _ hselected)

theorem setScalar_eq_ok {kind : ScalarKind} (hi : integral (.scalar kind : Ty Empty) = true) {v : kind.Val env.toCarriers} :
    setScalar env kind text = .ok v ↔ Ini.setScalar env kind text = .ok v := by
  cases kind with
  | int w =>
    rw [setScalar,Ini.setScalar]
    cases atoi text with
    | none => constructor <;> intro h <;> cases h
    | some n => exact ⟨fun h => congrArg _ (Except.ok.inj h),fun h => congrArg _ (Except.ok.inj h)⟩
  | uint w =>
    rw [setScalar,Ini.setScalar]
    cases parseUint text with
    | none => constructor <;> intro h <;> cases h
    | some n => exact ⟨fun h => congrArg _ (Except.ok.inj h),fun h => congrArg _ (Except.ok.inj h)⟩
  | string => cases hi
  | bool => cases hi
  | float => cases hi

/-- Behind pointers, what `set` stores is what the `set` of configurations does. -/
theorem set_eq_ok : ∀ (t : Ty Empty) (v v' : t.Val env), integral t = true →
    (set env text t v = .ok v' ↔ pointed t = true ∧ Ini.set env t text v = .ok v')
  | .scalar kind, _, v', hi => (setScalar_eq_ok hi).trans (and_iff_right rfl).symm
  | .ptr t, v, v', hi => by
    have inner (u : t.Val env) := set_eq_ok t (v.getD (t.zero env)) u hi
    constructor
    · intro h
      obtain ⟨u,hu,rfl⟩ := map_eq_ok.mp h
      exact ⟨((inner u).mp hu).1,map_eq_ok.mpr ⟨u,((inner u).mp hu).2,rfl⟩⟩
    · rintro ⟨hp,h⟩
      obtain ⟨u,hu,rfl⟩ := map_eq_ok.mp h
      exact map_eq_ok.mpr ⟨u,(inner u).mpr ⟨hp,hu⟩,rfl⟩
  | .slice t, _, _, _ => ⟨nofun,nofun⟩
  | .array _ t, _, _, _ => ⟨nofun,nofun⟩

private theorem setColumn_cell {col : Option GoString} {v' : t.Val env} (hs : select env rd row i t v = .ok (.cell c)) :
    setColumn env rd row i col t v = .ok v' ↔
      c.settable = true ∧ ∃ u, store env col c.type c.value = .ok u ∧ c.put u = v' := by
  rw [setColumn,hs]
  show (if c.settable then c.put <$> store env col c.type c.value else .error .unexpectedType) = .ok v' ↔ _
  split
  · rename_i settable
    rw [map_eq_ok]
    exact (and_iff_right settable).symm
  · rename_i settable
    exact ⟨nofun,fun h => absurd h.1 settable⟩

/-- A column is stored as the integer that it denotes, or not at all, exactly if it fits where it can be stored. -/
theorem setColumn_exact_iff
    (hs : select env rd row i t v = .ok (.cell c)) (hi : integral c.type = true) :
    (∀ v', setColumn env rd row i (some text) t v = .ok v' → ∃ u, c.put u = v' ∧ denotes env c.type text u) ↔
      (c.settable = true → pointed c.type = true → accepted c.type text → fits c.type text) := by
  simp only [setColumn_cell hs,store,set_eq_ok _ _ _ hi]
  constructor
  · intro h hset hp ha
    obtain ⟨u,hu⟩ := Ini.set_accepted c.type text c.value hi ha
    obtain ⟨u',hput,hd⟩ := h _ ⟨hset,u,⟨hp,hu⟩,rfl⟩
    cases select_exact hs hput
    exact (Ini.set_stored c.type text _ _ hi hu).exact_iff.mp hd
  · rintro h _ ⟨hset,u,⟨hp,hu⟩,rfl⟩
    have stored := Ini.set_stored c.type text _ _ hi hu
    exact ⟨u,rfl,stored.exact_iff.mpr (h hset hp stored.accepted)⟩

end

/-- Neither path stores another integer than the text denotes, exactly if each integer that can be parsed with 64 bits
is one of the field's. -/
theorem integers_exact_iff {C : Type} (configs : Env C) (text : GoString) :
    (∀ t : Ty C, integral t = true →
      ((∀ v v' : t.Val configs, Ini.set configs t text v = .ok v' → denotes configs t text v') ↔
        (accepted t text → fits t text))) ∧
    ∀ (rd : List GoString) (row i : Nat) (t : Ty Empty) (v : t.Val env) (c : Cell env (t.Val env)),
      select env rd row i t v = .ok (.cell c) → integral c.type = true →
        ((∀ v', setColumn env rd row i (some text) t v = .ok v' → ∃ u, c.put u = v' ∧ denotes env c.type text u) ↔
          (c.settable = true → pointed c.type = true → accepted c.type text → fits c.type text)) :=
  ⟨fun _ => Ini.set_exact_iff,fun _ _ _ _ _ _ => setColumn_exact_iff⟩

def portResult : Ty Empty := .ptr (.struct (.cons ⟨ascii ['P', 'o', 'r', 't'],true,[]⟩ (.scalar (.uint .w16)) .nil))

/-- `70000` as a port of 16 bits is 4464 on both paths. -/
theorem port_70000_wraps :
    let text := ascii ['7', '0', '0', '0', '0']
    Ini.set Ini.plainEnv (.scalar (.uint .w16)) text (0 : BitVec 16) = .ok (4464 : BitVec 16) ∧
      setColumn Ini.plainEnv [ascii ['P', 'o', 'r', 't']] 0 0 (some text) portResult (some ((0 : BitVec 16),())) =
        .ok (some ((4464 : BitVec 16),())) ∧
      ¬ denotes Ini.plainEnv (.scalar (.uint .w16)) text (4464 : BitVec 16) :=
  ⟨rfl,rfl,by
    show decimal _ ≠ _
    decide⟩

end Pggat.Gsql
