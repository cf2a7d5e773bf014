import Pggat.Base.Action

/-! Programs with unbounded loops. A program is run with a bound on the turns of each loop, and what it
does is what it does under every large enough bound. Total correctness is stated up to an escape, a
property of states that once reached excuses a run. -/
namespace Pggat.Base

def Prog (F σ α : Type) : Type := Nat → Action F σ α

namespace Prog
variable {F σ α β : Type}

instance : Monad (Prog F σ) where
  pure a := fun _ => pure a
  bind m f := fun n => m n >>= fun a => f a n

def lift (m : Action F σ α) : Prog F σ α := fun _ => m

def throw (e : F) : Prog F σ α := lift (Action.throw e)

/-- At most `n` turns of a loop that ends when a turn returns a value. -/
def turns (hang : F) (body : Action F σ (Option α)) : Nat → Action F σ α
  | 0 => Action.throw hang
  | n+1 => do
    match ← body with
    | some a => pure a
    | none => turns hang body n

/-- `for { .. }` -/
def loop (hang : F) (body : Prog F σ (Option α)) : Prog F σ α := fun n => turns hang (body n) n

/-- What the program ends with, given enough turns. -/
def Converges (m : Prog F σ α) (s : σ) (r : Except F α × σ) : Prop := ∃ N, ∀ n ≥ N, m n s = r

variable {s : σ}

/-- The program ends with a value of which `Q` holds or an error of which `E` holds. -/
def Post (Q : α → σ → Prop) (E : F → σ → Prop) : Except F α × σ → Prop
  | (.ok a,s) => Q a s
  | (.error e,s) => E e s

def Escapes (X : σ → Prop) (m : Prog F σ α) (s : σ) : Prop := ∃ N, ∀ n ≥ N, X (m n s).2

/-- The program ends as described or reaches the escape. -/
def Ends (X : σ → Prop) (m : Prog F σ α) (s : σ) (Q : α → σ → Prop) (E : F → σ → Prop) : Prop :=
  (∃ r, Converges m s r ∧ Post Q E r) ∨ Escapes X m s

/-- The program ends with a value of which `P` holds. -/
def Settles (m : Prog F σ α) (s : σ) (P : α → σ → Prop) : Prop := ∃ a s', Converges m s (.ok a,s') ∧ P a s'

/-- A run that has reached the escape stays there. -/
def Keeps (X : σ → Prop) (m : Prog F σ α) : Prop := ∀ n s, X s → X (m n s).2

theorem bind_apply (m : Prog F σ α) (f : α → Prog F σ β) (n : Nat) : (m >>= f) n = m n >>= fun a => f a n := rfl

/-- More turns change nothing once a run has not run out of them. -/
def Stable (hang : F) (m : Prog F σ α) : Prop := ∀ n k s, n ≤ k → (m n s).1 ≠ .error hang → m k s = m n s

variable {hang : F} {body : Prog F σ (Option α)}

theorem turns_keeps {X : σ → Prop} (h : Keeps X body) (n k : Nat)
    (hs : X s) : X (turns hang (body n) k s).2 := by
  induction k generalizing s with
  | zero => exact hs
  | succ k ih =>
    have hb := h n s hs
    unfold turns
    rcases hr : body n s with ⟨e | a,s'⟩
    · rw [hr] at hb
      rw [Action.bind_error hr]
      exact hb
    · rw [hr] at hb
      rw [Action.bind_ok hr]
      cases a with
      | some a => exact hb
      | none => exact ih hb

theorem turns_stable (h : Stable hang body) {n k j l : Nat} (hnk : n ≤ k)
    (hjl : j ≤ l) (hr : (turns hang (body n) j s).1 ≠ .error hang) :
    turns hang (body k) l s = turns hang (body n) j s := by
  induction j generalizing l s with
  | zero => exact absurd rfl hr
  | succ j ih =>
    obtain ⟨l,rfl⟩ : ∃ i, l = i + 1 := ⟨l - 1,by omega⟩
    unfold turns at hr ⊢
    have hb := h n k s hnk
    rcases hs : body n s with ⟨e | a,s'⟩
    · rw [Action.bind_error hs] at hr ⊢
      rw [hs] at hb
      have he : e ≠ hang := fun h => hr (congrArg Except.error h)
      exact Action.bind_error (hb (by simpa using he))
    · rw [Action.bind_ok hs] at hr ⊢
      rw [hs] at hb
      rw [Action.bind_ok (hb (by simp))]
      cases a with
      | some a => rfl
      | none => exact ih (by omega) hr

/-- Programs that consist of certain operations. -/
inductive Built (hang : F) (P : (α : Type) → Action F σ α → Prop) : (α : Type) → Prog F σ α → Prop
  | lift {α : Type} {m : Action F σ α} : P α m → Built hang P α (Prog.lift m)
  | bind {α β : Type} {m : Prog F σ α} {f : α → Prog F σ β} :
    Built hang P α m → (∀ a, Built hang P β (f a)) → Built hang P β (m >>= f)
  | loop {α : Type} {body : Prog F σ (Option α)} :
    Built hang P (Option α) body → Built hang P α (Prog.loop hang body)

namespace Built
variable {X : σ → Prop} {hang : F} {P : (α : Type) → Action F σ α → Prop}

variable {m : Prog F σ α}

theorem ite {c : Prop} [Decidable c] {m' : Prog F σ α} (h : Built hang P α m) (h' : Built hang P α m') :
    Built hang P α (if c then m else m') := by
  split
  · exact h
  · exact h'

/-- A program keeps what its operations keep. -/
theorem keeps (hP : ∀ α m, P α m → ∀ s, X s → X (m s).2) (h : Built hang P α m) : Keeps X m := by
  induction h with
  | lift hm => exact fun _ s hs => hP _ _ hm s hs
  | @bind α β m f _ _ ihm ihf =>
    intro n s hs
    have hm := ihm n s hs
    rw [bind_apply]
    rcases hr : m n s with ⟨e | a,s'⟩
    · rw [hr] at hm
      rw [Action.bind_error hr]
      exact hm
    · rw [hr] at hm
      rw [Action.bind_ok hr]
      exact ihf a n s' hm
  | loop _ ih => exact fun n _ hs => turns_keeps ih n n hs

theorem stable (h : Built hang P α m) : Stable hang m := by
  induction h with
  | lift hm => exact fun _ _ _ _ _ => rfl
  | @bind α β m f _ _ ihm ihf =>
    intro n k s hnk hr
    have hm := ihm n k s hnk
    rw [bind_apply] at hr ⊢
    rw [bind_apply]
    rcases hs : m n s with ⟨e | a,s'⟩
    · rw [Action.bind_error hs] at hr ⊢
      rw [hs] at hm
      have he : e ≠ hang := fun h => hr (congrArg Except.error h)
      exact Action.bind_error (hm (by simpa using he))
    · rw [Action.bind_ok hs] at hr ⊢
      rw [hs] at hm
      rw [Action.bind_ok (hm (by simp))]
      exact ihf a n k s' hnk hr
  | loop _ ih => exact fun n k s hnk hr => turns_stable ih hnk hnk hr

end Built

namespace Ends
variable {X : σ → Prop} {s : σ} {Q : α → σ → Prop} {E : F → σ → Prop}

theorem pure {a : α} (h : Q a s) : Ends X (Pure.pure a : Prog F σ α) s Q E := .inl ⟨_,⟨0,fun _ _ => rfl⟩,h⟩

theorem throw {e : F} (h : E e s) : Ends X (Prog.throw e) s Q E := .inl ⟨_,⟨0,fun _ _ => rfl⟩,h⟩

variable {m : Prog F σ α}

theorem escape (h : ∀ n, X (m n s).2) : Ends X m s Q E := .inr ⟨0,fun n _ => h n⟩

theorem mono {Q' : α → σ → Prop} {E' : F → σ → Prop} (h : Ends X m s Q E) (hQ : ∀ a s, Q a s → Q' a s)
    (hE : ∀ e s, E e s → E' e s) : Ends X m s Q' E' := by
  rcases h with ⟨⟨r | a,s'⟩,hc,hp⟩ | h
  · exact .inl ⟨_,hc,hE r s' hp⟩
  · exact .inl ⟨_,hc,hQ a s' hp⟩
  · exact .inr h

variable {f : α → Prog F σ β} {P : α → σ → Prop}

theorem after {Q : β → σ → Prop} (h : Settles m s P)
    (hk : ∀ a s, P a s → Ends X (f a) s Q E) : Ends X (m >>= f) s Q E := by
  obtain ⟨a,s',⟨N,hN⟩,hp⟩ := h
  rcases hk a s' hp with ⟨r,⟨N',hN'⟩,hr⟩ | ⟨N',hN'⟩
  · refine .inl ⟨r,⟨max N N',fun n hn => ?_⟩,hr⟩
    rw [bind_apply,Action.bind_ok (hN n (by omega))]
    exact hN' n (by omega)
  · refine .inr ⟨max N N',fun n hn => ?_⟩
    rw [bind_apply,Action.bind_ok (hN n (by omega))]
    exact hN' n (by omega)

theorem bind {Q : β → σ → Prop}
    (h : Ends X m s (fun a s' => Ends X (f a) s' Q E) E) (hf : ∀ a, Keeps X (f a)) : Ends X (m >>= f) s Q E := by
  rcases h with ⟨⟨e | a,s'⟩,⟨N,hN⟩,hp⟩ | ⟨N,hN⟩
  · exact .inl ⟨(.error e,s'),⟨N,fun n hn => by rw [bind_apply,Action.bind_error (hN n hn)]⟩,hp⟩
  · exact after (P := fun a s' => Ends X (f a) s' Q E) ⟨a,s',⟨N,hN⟩,hp⟩ fun _ _ h => h
  · refine .inr ⟨N,fun n hn => ?_⟩
    have hx := hN n hn
    rw [bind_apply]
    rcases hr : m n s with ⟨e | a,s'⟩
    · rw [hr] at hx
      rw [Action.bind_error hr]
      exact hx
    · rw [hr] at hx
      rw [Action.bind_ok hr]
      exact hf a n s' hx

theorem seq {Q : β → σ → Prop}
    (h : Ends X m s P fun _ _ => False) (hf : ∀ a, Keeps X (f a)) (hk : ∀ a s, P a s → Ends X (f a) s Q E) :
    Ends X (m >>= f) s Q E :=
  (h.mono hk fun _ _ h => h.elim).bind hf

variable {hang : F} {body : Prog F σ (Option α)}

/-- What a loop with an invariant and a variant does: each turn ends it or keeps the invariant and lowers
the variant. -/
theorem turns {I : σ → Prop} {v : σ → Nat} (hkeeps : Keeps X body)
    (hbody : ∀ s, I s → Ends X body s (fun r s' => match r with
      | some a => Q a s'
      | none => I s' ∧ v s' < v s) E) (hI : I s) :
    (∃ r, (∃ N, ∀ n ≥ N, ∀ k ≥ N, Prog.turns hang (body n) k s = r) ∧ Post Q E r) ∨
      ∃ N, ∀ n ≥ N, ∀ k ≥ N, X (Prog.turns hang (body n) k s).2 := by
  induction hv : v s using Nat.strongRecOn generalizing s with
  | _ v₀ ih =>
    rcases hbody s hI with ⟨⟨e | a,s'⟩,⟨N,hN⟩,hp⟩ | ⟨N,hN⟩
    · refine .inl ⟨(.error e,s'),⟨N + 1,fun n hn k hk => ?_⟩,hp⟩
      obtain ⟨k,rfl⟩ : ∃ j, k = j + 1 := ⟨k - 1,by omega⟩
      rw [Prog.turns,Action.bind_error (hN n (by omega))]
    · cases a with
      | some a =>
        refine .inl ⟨(.ok a,s'),⟨N + 1,fun n hn k hk => ?_⟩,hp⟩
        obtain ⟨k,rfl⟩ : ∃ j, k = j + 1 := ⟨k - 1,by omega⟩
        rw [Prog.turns,Action.bind_ok (hN n (by omega))]
        rfl
      | none =>
        obtain ⟨hI',hlt⟩ := hp
        rcases ih (v s') (hv ▸ hlt) hI' rfl with ⟨r,⟨N',hN'⟩,hp⟩ | ⟨N',hN'⟩
        · refine .inl ⟨r,⟨max N N' + 1,fun n hn k hk => ?_⟩,hp⟩
          obtain ⟨k,rfl⟩ : ∃ j, k = j + 1 := ⟨k - 1,by omega⟩
          rw [Prog.turns,Action.bind_ok (hN n (by omega))]
          exact hN' n (by omega) k (by omega)
        · refine .inr ⟨max N N' + 1,fun n hn k hk => ?_⟩
          obtain ⟨k,rfl⟩ : ∃ j, k = j + 1 := ⟨k - 1,by omega⟩
          rw [Prog.turns,Action.bind_ok (hN n (by omega))]
          exact hN' n (by omega) k (by omega)
    · refine .inr ⟨N + 1,fun n hn k hk => ?_⟩
      obtain ⟨k,rfl⟩ : ∃ j, k = j + 1 := ⟨k - 1,by omega⟩
      have hx := hN n (by omega)
      unfold Prog.turns
      rcases hr : body n s with ⟨e | a,s'⟩
      · rw [hr] at hx
        rw [Action.bind_error hr]
        exact hx
      · rw [hr] at hx
        rw [Action.bind_ok hr]
        cases a with
        | some a => exact hx
        | none => exact turns_keeps hkeeps n k hx

theorem loop (I : σ → Prop) (v : σ → Nat) (hkeeps : Keeps X body)
    (hbody : ∀ s, I s → Ends X body s (fun r s' => match r with
      | some a => Q a s'
      | none => I s' ∧ v s' < v s) E) (hI : I s) : Ends X (Prog.loop hang body) s Q E := by
  rcases turns hkeeps hbody hI with ⟨r,⟨N,hN⟩,hp⟩ | ⟨N,hN⟩
  · exact .inl ⟨r,⟨N,fun n hn => hN n hn n hn⟩,hp⟩
  · exact .inr ⟨N,fun n hn => hN n hn n hn⟩

/-- A run that never reaches the escape ends as described. -/
theorem converges (h : Ends X m s Q E) (hx : ∀ n, ¬ X (m n s).2) :
    ∃ r, Converges m s r ∧ Post Q E r := by
  rcases h with h | ⟨N,hN⟩
  · exact h
  · exact absurd (hN N (Nat.le_refl N)) (hx N)

end Ends

namespace Settles
variable {s : σ} {Q : α → σ → Prop}

variable {m : Prog F σ α}

theorem of_ends (h : Ends (fun _ => False) m s Q fun _ _ => False) : Settles m s Q := by
  obtain ⟨⟨e | a,s'⟩,hc,hp⟩ := h.converges fun _ => id
  · cases hp
  · exact ⟨a,s',hc,hp⟩

theorem ends {X : σ → Prop} {E : F → σ → Prop} (h : Settles m s Q) : Ends X m s Q E := by
  obtain ⟨a,s',hc,hp⟩ := h
  exact .inl ⟨_,hc,hp⟩

theorem pure {a : α} (h : Q a s) : Settles (Pure.pure a : Prog F σ α) s Q := ⟨a,s,⟨0,fun _ _ => rfl⟩,h⟩

theorem bind {f : α → Prog F σ β} {P : α → σ → Prop} {Q : β → σ → Prop} (h : Settles m s P)
    (hk : ∀ a s, P a s → Settles (f a) s Q) : Settles (m >>= f) s Q :=
  .of_ends (Ends.after h fun a s' hp => (hk a s' hp).ends)

theorem loop {hang : F} {body : Prog F σ (Option α)} (I : σ → Prop) (v : σ → Nat)
    (hbody : ∀ s, I s → Settles body s fun r s' => match r with
      | some a => Q a s'
      | none => I s' ∧ v s' < v s) (hI : I s) : Settles (Prog.loop hang body) s Q :=
  .of_ends (Ends.loop I v (fun _ _ => id) (fun s hs => (hbody s hs).ends) hI)

end Settles
end Prog
end Pggat.Base
