import Mathlib.Algebra.Ring.Int.Defs
import Mathlib.Data.List.Forall2
import Mathlib.Data.List.GetD
import Pggat.Ini.Set

/-! Integers that are read from a text: which integer the text denotes, and which one the field holds afterwards. -/
namespace Pggat.Ini
open Pggat.Base Pggat.Base.Reflect
variable {C : Type}

/-- The integer that a decimal text with or without a sign denotes. -/
def integer (text : GoString) : Option Int :=
  (decimal (sign text).2).map fun n => if (sign text).1 then -n else n

/-- Integer kinds, behind pointers and in slices and arrays. -/
def integral : Ty C → Bool
  | .scalar (.int _) => true
  | .scalar (.uint _) => true
  | .ptr t => integral t
  | .slice t => integral t
  | .array _ t => integral t
  | _ => false

def items (text : GoString) : List GoString := (splitAt 44 text).map trimSpace

/-- Each integer that the text denotes can be parsed with 64 bits. -/
def accepted : Ty C → GoString → Prop
  | .scalar (.int _), text => ∃ n, integer text = some n ∧ -2 ^ 63 ≤ n ∧ n < 2 ^ 63
  | .scalar (.uint _), text => ∃ n, decimal text = some n ∧ n < 2 ^ 64
  | .ptr t, text => accepted t text
  | .slice t, text => ∀ item ∈ items text, accepted t item
  | .array n t, text => (items text).length = n ∧ ∀ item ∈ items text, accepted t item
  | _, _ => True

/-- Each integer that the text denotes is one of the field's. -/
def fits : Ty C → GoString → Prop
  | .scalar (.int w), text => ∀ n, integer text = some n → -2 ^ (w.bits - 1) ≤ n ∧ n < 2 ^ (w.bits - 1)
  | .scalar (.uint w), text => ∀ n, decimal text = some n → n < 2 ^ w.bits
  | .ptr t, text => fits t text
  | .slice t, text => ∀ item ∈ items text, fits t item
  | .array _ t, text => ∀ item ∈ items text, fits t item
  | _, _ => True

variable (env : Env C)

/-- The value holds exactly the integers that the text denotes. -/
def denotes : (t : Ty C) → GoString → t.Val env → Prop
  | .scalar (.int _), text, v => integer text = some (BitVec.toInt v)
  | .scalar (.uint _), text, v => decimal text = some (BitVec.toNat v : Int)
  | .ptr t, text, v => ∃ u, v = some u ∧ denotes t text u
  | .slice t, text, v => List.Forall₂ (denotes t) (items text) v
  | .array _ t, text, v => List.Forall₂ (denotes t) (items text) (List.ofFn v)
  | _, _, _ => True

variable {n : Int}

theorem decimal_nonneg {digits : GoString} (h : decimal digits = some n) : 0 ≤ n := by
  have all := mem_of_decimal h
  rw [decimal] at h
  split at h
  · cases h
  · cases h
    refine foldl_keeps (P := (0 ≤ ·)) (fun b hb n hn => ?_) (Int.le_refl 0)
    have : 48 ≤ b.toNat := UInt8.le_iff_toNat_le.mp (all b hb).1
    omega

variable {text : GoString}

theorem atoi_eq_some :
    atoi text = some n ↔ integer text = some n ∧ -2 ^ 63 ≤ n ∧ n < 2 ^ 63 := by
  rw [atoi_eq,integer]
  cases hd : decimal (sign text).2 with
  | none => simp
  | some m =>
    have := decimal_nonneg hd
    simp only [Option.bind_some,Option.map_some,Option.some.injEq]
    constructor
    · intro h
      by_cases hs : (sign text).1 = true
      · rw [if_pos hs] at h ⊢
        split at h
        · cases h
          exact ⟨rfl,by omega,by omega⟩
        · cases h
      · rw [if_neg hs] at h ⊢
        split at h
        · cases h
          exact ⟨rfl,by omega,by omega⟩
        · cases h
    · rintro ⟨h,hl,hr⟩
      by_cases hs : (sign text).1 = true
      · rw [if_pos hs] at h ⊢
        rw [if_pos (by omega),h]
      · rw [if_neg hs] at h ⊢
        rw [if_pos (by omega),h]

theorem parseUint_eq_some {n : Nat} :
    parseUint text = some n ↔ decimal text = some (n : Int) ∧ (n : Int) < 2 ^ 64 := by
  rw [parseUint]
  cases hd : decimal text with
  | none => simp
  | some m =>
    have := decimal_nonneg hd
    simp only [Option.bind_some,Option.some.injEq]
    constructor
    · intro h
      split at h
      · cases h
        omega
      · cases h
    · rintro ⟨rfl,h⟩
      rw [if_pos (by omega)]
      rfl

private theorem width_pos (w : Width) : 0 < w.bits := by cases w <;> decide

private theorem toInt_ofInt_eq (w : Width) (n : Int) :
    (BitVec.ofInt w.bits n).toInt = n ↔ -2 ^ (w.bits - 1) ≤ n ∧ n < 2 ^ (w.bits - 1) := by
  constructor
  · intro h
    rw [← h]
    exact ⟨BitVec.le_toInt _,BitVec.toInt_lt⟩
  · rintro ⟨hl,hr⟩
    exact BitVec.toInt_ofInt_eq_self (width_pos w) hl hr

section
variable {env} {text : GoString}

variable {w : Width} {v : BitVec w.bits}

private theorem setScalar_int :
    setScalar env (.int w) text = .ok v ↔
      ∃ n, (integer text = some n ∧ -2 ^ 63 ≤ n ∧ n < 2 ^ 63) ∧ v = BitVec.ofInt w.bits n := by
  simp only [← atoi_eq_some]
  exact setScalar_iff

private theorem setScalar_uint :
    setScalar env (.uint w) text = .ok v ↔
      ∃ n : Nat, (decimal text = some (n : Int) ∧ (n : Int) < 2 ^ 64) ∧ v = BitVec.ofNat w.bits n := by
  simp only [← parseUint_eq_some]
  exact setScalar_iff

/-- A text that was accepted denotes what the field holds exactly if it fits. -/
structure Stored (t : Ty C) (text : GoString) (v : t.Val env) : Prop where
  accepted : accepted t text
  exact_iff : denotes env t text v ↔ fits t text

theorem stored_int (h : setScalar env (.int w) text = .ok v) :
    @Stored C env (.scalar (.int w)) text v := by
  obtain ⟨n,⟨hn,range⟩,rfl⟩ := setScalar_int.mp h
  refine ⟨⟨n,hn,range⟩,?_⟩
  show integer text = some (BitVec.ofInt w.bits n).toInt ↔
    ∀ n, integer text = some n → -2 ^ (w.bits - 1) ≤ n ∧ n < 2 ^ (w.bits - 1)
  rw [hn,Option.some.injEq,eq_comm,toInt_ofInt_eq]
  exact ⟨fun h _ he => Option.some.inj he ▸ h,fun h => h n rfl⟩

theorem stored_uint (h : setScalar env (.uint w) text = .ok v) :
    @Stored C env (.scalar (.uint w)) text v := by
  obtain ⟨n,⟨hn,range⟩,rfl⟩ := setScalar_uint.mp h
  refine ⟨⟨n,hn,range⟩,?_⟩
  show decimal text = some ((BitVec.ofNat w.bits n).toNat : Int) ↔ ∀ n, decimal text = some n → n < 2 ^ w.bits
  rw [hn,Option.some.injEq,Int.natCast_inj,BitVec.toNat_ofNat,eq_comm,Nat.mod_eq_iff_lt (Nat.two_pow_pos _).ne']
  have cast : n < 2 ^ w.bits ↔ (n : Int) < 2 ^ w.bits := by
    rw [← Int.ofNat_lt,Int.natCast_pow]
    rfl
  rw [cast]
  exact ⟨fun h _ he => Option.some.inj he ▸ h,fun h => h n rfl⟩

variable {t : Ty C} {ls : List GoString}

theorem stored_items {us : List (t.Val env)}
    (h : List.Forall₂ (fun item u => Stored t item u) ls us) :
    (∀ item ∈ ls, accepted t item) ∧ (List.Forall₂ (denotes env t) ls us ↔ ∀ item ∈ ls, fits t item) := by
  induction h with
  | nil => simp
  | cons hx _ ih =>
    simp only [List.forall_mem_cons,List.forall₂_cons]
    exact ⟨⟨hx.accepted,ih.1⟩,and_congr hx.exact_iff ih.2⟩

theorem stored_ofFn {n : Nat} (hn : ls.length = n) {f : Fin n → t.Val env}
    (each : ∀ i : Fin n, Stored t (trimSpace (ls.getD i [])) (f i)) :
    List.Forall₂ (fun item u => Stored t item u) (ls.map trimSpace) (List.ofFn f) := by
  refine List.forall₂_iff_get.mpr ⟨by simp [hn],fun i h₁ h₂ => ?_⟩
  have hlt : i < n := by simpa using h₂
  simpa [hn,hlt] using each ⟨i,hlt⟩

theorem set_stored : ∀ (t : Ty C) (text : GoString) (v v' : t.Val env), integral t = true →
    set env t text v = .ok v' → Stored t text v'
  | .scalar (.int _), _, _, _, _, h => stored_int h
  | .scalar (.uint _), _, _, _, _, h => stored_uint h
  | .ptr t, text, v, v', hi, h => by
    obtain ⟨u,hu,rfl⟩ := map_eq_ok.mp h
    obtain ⟨ha,he⟩ := set_stored t text _ u hi hu
    exact ⟨ha,⟨fun ⟨u',hu',hd⟩ => he.mp (Option.some.inj hu' ▸ hd),fun hf => ⟨u,rfl,he.mpr hf⟩⟩⟩
  | .slice t, text, v, v', hi, h => by
    have each : List.Forall₂ (fun item u => Stored t item u) (items text) v' :=
      List.forall₂_map_left_iff.mpr ((mapM_eq_ok.mp h).imp fun item u hu => set_stored t _ _ u hi hu)
    obtain ⟨ha,he⟩ := stored_items each
    exact ⟨ha,he⟩
  | .array n t, text, v, v', hi, h => by
    change (if (splitAt 44 text).length ≠ n then Except.error Failure.wrongLength
      else sequence fun i => set env t (trimSpace ((splitAt 44 text).getD i [])) (v i)) = .ok v' at h
    split at h
    · cases h
    rename_i hn
    rw [not_not] at hn
    have each := sequence_eq_ok.mp h
    obtain ⟨ha,he⟩ := stored_items (stored_ofFn hn fun i => set_stored t _ _ _ hi (each i))
    exact ⟨⟨by simpa [items] using hn,ha⟩,he⟩

theorem set_accepted : ∀ (t : Ty C) (text : GoString) (v : t.Val env), integral t = true → accepted t text →
    ∃ v', set env t text v = .ok v'
  | .scalar (.int w), _, _, _, ⟨_,hn⟩ => ⟨_,setScalar_int.mpr ⟨_,hn,rfl⟩⟩
  | .scalar (.uint w), text, _, _, ⟨n,hn,range⟩ => by
    have cast : (n.toNat : Int) = n := Int.toNat_of_nonneg (decimal_nonneg hn)
    rw [← cast] at hn range
    exact ⟨_,setScalar_uint.mpr ⟨n.toNat,⟨hn,range⟩,rfl⟩⟩
  | .ptr t, text, v, hi, ha => by
    obtain ⟨u,hu⟩ := set_accepted t text (v.getD (t.zero env)) hi ha
    exact ⟨some u,map_eq_ok.mpr ⟨u,hu,rfl⟩⟩
  | .slice t, text, v, hi, ha => by
    refine exists_mapM_eq_ok fun item hitem => ?_
    exact set_accepted t (trimSpace item) (t.zero env) hi (ha _ (List.mem_map_of_mem hitem))
  | .array n t, text, v, hi, ⟨hn,ha⟩ => by
    have hn' : (splitAt 44 text).length = n := by simpa [items] using hn
    have each (i : Fin n) : ∃ u, set env t (trimSpace ((splitAt 44 text).getD i [])) (v i) = .ok u := by
      refine set_accepted t _ (v i) hi (ha _ (List.mem_map_of_mem ?_))
      rw [List.getD_eq_getElem _ _ (hn'.symm ▸ i.isLt)]
      exact List.getElem_mem _
    choose f hf using each
    refine ⟨f,?_⟩
    show (if (splitAt 44 text).length ≠ n then Except.error Failure.wrongLength
      else sequence fun i => set env t (trimSpace ((splitAt 44 text).getD i [])) (v i)) = .ok f
    rw [if_neg (not_not.mpr hn')]
    exact sequence_eq_ok.mpr hf

/-- `set` stores the integers that a text denotes, or fails, exactly if those that can be parsed with 64 bits fit. -/
theorem set_exact_iff (hi : integral t = true) :
    (∀ v v' : t.Val env, set env t text v = .ok v' → denotes env t text v') ↔ (accepted t text → fits t text) := by
  constructor
  · intro h ha
    obtain ⟨v',hv⟩ := set_accepted t text (t.zero env) hi ha
    exact (set_stored t text _ v' hi hv).exact_iff.mp (h _ v' hv)
  · intro h v v' hv
    have stored := set_stored t text v v' hi hv
    exact stored.exact_iff.mpr (h stored.accepted)

end

end Pggat.Ini
