import Pggat.Frontends.Startup
import Mathlib.Data.List.Induction

/-! Whether a connection is encrypted, and what its flag says about it. Nothing sets the flag. -/
namespace Pggat.Frontends
open Pggat.Base
open Pggat.Ps (Fold CIString makeCIString Parameters)

variable {fold : Fold}

def Turn.opensSession (turn : Turn) : Bool :=
  match turn.packet with
  | some (.version3 _ _) => true
  | _ => false

def requests (turns : List Turn) : List Turn := turns.takeWhile fun turn => !turn.opensSession

/-- The flag and all that is decided by it agree with the connection. -/
structure Truthful (c : Conn fold) : Prop where
  flag : c.ssl = true ↔ c.codec.handshaken = true
  required : ∀ ssl, requireSSL ssl c = none ↔ c.codec.handshaken = ssl
  matched : ∀ ssl, matchesSSL ssl c = true ↔ c.codec.handshaken = ssl
  pgbouncer : ∀ isRequired, pgbouncerSSL isRequired c = none ↔ (isRequired = true → c.codec.handshaken = true)

private theorem requireSSL_none (ssl : Bool) (c : Conn fold) : requireSSL ssl c = none ↔ c.ssl = ssl := by
  unfold requireSSL
  cases ssl
  · cases c.ssl <;> simp
  · cases c.ssl <;> simp

private theorem pgbouncerSSL_none (isRequired : Bool) (c : Conn fold) :
    pgbouncerSSL isRequired c = none ↔ (isRequired = true → c.ssl = true) := by
  unfold pgbouncerSSL
  cases isRequired
  · simp
  · cases c.ssl <;> simp

variable {c : Conn fold}

theorem truthful_iff : Truthful c ↔ c.ssl = c.codec.handshaken := by
  constructor
  · intro h
    exact Bool.eq_iff_iff.mpr h.flag
  · intro h
    refine ⟨by rw [h],fun ssl => ?_,fun ssl => ?_,fun isRequired => ?_⟩
    · rw [requireSSL_none,h]
    · rw [matchesSSL,beq_iff_eq,h]
    · rw [pgbouncerSSL_none,h]

/-- What one step leaves of the flag and of the connection below. -/
structure Leaves (c c' : Conn fold) (encrypts : Bool) : Prop where
  flag : c'.ssl = c.ssl
  handshaken : c'.codec.handshaken = (c.codec.handshaken || encrypts)

variable {c' : Conn fold}

theorem Leaves.same (hs : c'.ssl = c.ssl) (hc : c'.codec = c.codec) : Leaves c c' false :=
  ⟨hs,by rw [hc,Bool.or_false]⟩

variable {b b' : Bool}

theorem Leaves.trans {c'' : Conn fold} (h : Leaves c c' b) (h' : Leaves c' c'' b') :
    Leaves c c'' (b || b') :=
  ⟨h'.flag.trans h.flag,by rw [h'.handshaken,h.handshaken,Bool.or_assoc]⟩

/-- What a computation leaves when it succeeds. -/
def Leaving {α : Type} (m : ConnM fold α) (encrypts : Bool) : Prop :=
  ∀ c a c', m c = (.ok a,c') → Leaves c c' encrypts

variable {α : Type}

theorem Leaving.pure (a : α) : Leaving (pure a : ConnM fold α) false := by
  intro c a' c' h
  cases h
  exact .same rfl rfl

variable {m : ConnM fold α}

theorem Leaving.bind {β : Type} {k : α → ConnM fold β} (hm : Leaving m b)
    (hk : ∀ a, Leaving (k a) b') : Leaving (m >>= k) (b || b') := by
  intro c a c' h
  obtain ⟨a',c₁,h₁,h₂⟩ := Action.bind_ok_inv h
  exact (hm c a' c₁ h₁).trans (hk a' c₁ a c' h₂)

theorem Leaving.throw (f : Failure) (b : Bool) : Leaving (Action.throw f : ConnM fold α) b := by
  intro c a c' h
  cases h

theorem Leaving.keep (h : ∀ c, (m c).2.ssl = c.ssl ∧ (m c).2.codec = c.codec) :
    Leaving m false := by
  intro c a c' hm
  have hc := h c
  rw [hm] at hc
  exact .same hc.1 hc.2

theorem write_leaves (turn : Turn) (reply : Reply) : Leaving (write turn reply : ConnM fold Unit) false := by
  intro c a c' h
  unfold write at h
  split at h
  · cases h
    exact .same rfl rfl
  · cases h

theorem enableSSL_leaves (turn : Turn) : Leaving (enableSSL turn : ConnM fold Unit) true := by
  intro c a c' h
  unfold enableSSL at h
  split at h
  · cases h
  simp only at h
  split at h
  · cases h
  split at h
  · cases h
  split at h
  · cases h
  cases h
  exact ⟨rfl,by simp⟩

private theorem setOptions_leaves (tokens : List GoString) : Leaving (setOptions tokens : ConnM fold Unit) false := by
  induction tokens using List.twoStepInduction with
  | nil => exact .pure ()
  | singleton token =>
    rw [setOptions]
    split
    · exact .throw _ _
    · exact .throw _ _
  | cons_cons token set tokens ih _ =>
    rw [setOptions]
    split
    · cases cut 61 set with
      | none => exact .throw _ _
      | some kv => exact Leaving.bind (.keep fun _ => ⟨rfl,rfl⟩) fun _ => ih
    · exact .throw _ _

private theorem setStartupParameter_leaves (p : Parameter) :
    Leaving (setStartupParameter p : ConnM fold (List GoString)) false := by
  unfold setStartupParameter
  split
  · exact Leaving.bind (.keep fun _ => ⟨rfl,rfl⟩) fun _ => .pure []
  split
  · exact Leaving.bind (.keep fun _ => ⟨rfl,rfl⟩) fun _ => .pure []
  split
  · exact (setOptions_leaves _).bind fun _ => .pure []
  split
  · exact .throw _ _
  split
  · exact .pure _
  · exact Leaving.bind (.keep fun _ => ⟨rfl,rfl⟩) fun _ => .pure []

private theorem setStartupParameters_leaves (ps : List Parameter) :
    Leaving (setStartupParameters ps : ConnM fold (List GoString)) false := by
  induction ps with
  | nil => exact .pure []
  | cons p ps ih =>
    exact (setStartupParameter_leaves p).bind fun _ => ih.bind fun _ => .pure _

private theorem finishStartup_leaves : Leaving (finishStartup : ConnM fold Outcome) false := by
  apply Leaving.keep
  intro c
  unfold finishStartup
  split
  · exact ⟨rfl,rfl⟩
  · split
    · exact ⟨rfl,rfl⟩
    · exact ⟨rfl,rfl⟩

private theorem negotiate_leaves (turn : Turn) (minorVersion : Int) (unsupported : List GoString) :
    Leaving (negotiate turn minorVersion unsupported : ConnM fold Unit) false := by
  unfold negotiate
  split
  · exact write_leaves turn _
  · exact .pure ()

def Turn.asksSSL (turn : Turn) : Bool := turn.packet = some .ssl

variable {turn : Turn}

theorem asksSSL_of_opens (h : turn.opensSession = true) : turn.asksSSL = false := by
  unfold Turn.opensSession at h
  unfold Turn.asksSSL
  split at h
  · rename_i hp
    rw [hp]
    rfl
  · cases h

/-- A step encrypts the connection when it is asked to and there is a configuration for it. -/
theorem startup0_leaves (sslConfig : Bool) (turn : Turn) :
    Leaving (startup0 sslConfig turn : ConnM fold Outcome) (sslConfig && turn.asksSSL) := by
  unfold startup0 Turn.asksSSL
  cases turn.packet with
  | none => exact .throw _ _
  | some packet =>
    cases packet with
    | ssl =>
      cases sslConfig with
      | false => exact (write_leaves turn _).bind fun _ => .pure _
      | true => exact (write_leaves turn _).bind fun _ => (enableSSL_leaves turn).bind fun _ => .pure _
    | cancel key =>
      simp only [Option.some.injEq,reduceCtorEq,decide_false,Bool.and_false]
      exact .pure _
    | gssapi =>
      simp only [Option.some.injEq,reduceCtorEq,decide_false,Bool.and_false]
      exact (write_leaves turn _).bind fun _ => .pure _
    | otherControl => exact .throw _ _
    | version3 minorVersion ps =>
      simp only [Option.some.injEq,reduceCtorEq,decide_false,Bool.and_false]
      exact (setStartupParameters_leaves ps).bind fun _ => (negotiate_leaves turn _ _).bind fun _ => finishStartup_leaves
    | otherVersion => exact .throw _ _

variable {outcome : Outcome}

private theorem finishStartup_outcome (h : finishStartup c = (.ok outcome,c')) :
    outcome = .done := by
  unfold finishStartup at h
  split at h
  · cases h
  · split at h
    · cases h
      rfl
    · cases h
      rfl

variable {sslConfig : Bool}

/-- A step is done when its packet opens the session; it is repeated after a request. -/
theorem startup0_outcome
    (h : startup0 sslConfig turn c = (.ok outcome,c')) :
    (outcome = .done → turn.opensSession = true) ∧ (outcome = .again → turn.opensSession = false) := by
  unfold startup0 at h
  unfold Turn.opensSession
  have hagain : ∀ {m : ConnM fold Unit}, (m >>= fun _ => pure .again) c = (.ok outcome,c') → outcome = .again := by
    intro m hm
    obtain ⟨_,_,-,hp⟩ := Action.bind_ok_inv hm
    cases hp
    rfl
  cases hp : turn.packet with
  | none =>
    rw [hp] at h
    cases h
  | some packet =>
    rw [hp] at h
    cases packet with
    | ssl =>
      cases sslConfig with
      | false =>
        cases hagain h
        exact ⟨by simp,by simp⟩
      | true =>
        obtain ⟨_,_,-,he⟩ := Action.bind_ok_inv h
        obtain ⟨_,_,-,he⟩ := Action.bind_ok_inv he
        cases he
        exact ⟨by simp,by simp⟩
    | cancel key =>
      cases h
      exact ⟨by simp,by simp⟩
    | gssapi =>
      cases hagain h
      exact ⟨by simp,by simp⟩
    | otherControl => cases h
    | version3 minorVersion ps =>
      obtain ⟨_,_,-,hr⟩ := Action.bind_ok_inv h
      obtain ⟨_,_,-,hf⟩ := Action.bind_ok_inv hr
      cases finishStartup_outcome hf
      exact ⟨by simp,by simp⟩
    | otherVersion => cases h

variable {turns : List Turn}

private theorem accept0_leaves
    (h : accept0 sslConfig turns c = (.ok .done,c')) :
    Leaves c c' (sslConfig && (requests turns).any Turn.asksSSL) := by
  induction turns generalizing c with
  | nil => cases h
  | cons turn turns ih =>
    obtain ⟨outcome,c₁,h₁,h₂⟩ := Action.bind_ok_inv h
    have hstep := startup0_leaves sslConfig turn c outcome c₁ h₁
    obtain ⟨hdone,hagain⟩ := startup0_outcome h₁
    cases outcome with
    | again =>
      have hrequests : requests (turn :: turns) = turn :: requests turns := by
        rw [requests,List.takeWhile_cons,hagain rfl]
        rfl
      rw [hrequests,List.any_cons,Bool.and_or_distrib_left]
      exact hstep.trans (ih h₂)
    | done =>
      have hopens := hdone rfl
      have hrequests : requests (turn :: turns) = [] := by
        rw [requests,List.takeWhile_cons,hopens]
        rfl
      have hasks : turn.asksSSL = false := asksSSL_of_opens hopens
      rw [hasks,Bool.and_false] at hstep
      cases h₂
      rw [hrequests,List.any_nil,Bool.and_false]
      exact hstep
    | cancelling key => cases h₂

private theorem accept_ok
    (h : (accept sslConfig turns c).1 = .ok outcome) :
    accept0 sslConfig turns c = (.ok outcome,(accept sslConfig turns c).2) := by
  rcases hr : accept0 sslConfig turns c with ⟨f | outcome',c'⟩
  · cases f with
    | error e => simp [accept,hr] at h
    | panic => simp [accept,hr] at h
    | waiting => simp [accept,hr] at h
  · simp only [accept,hr,Except.ok.injEq] at h ⊢
    rw [h]

/-- A new connection that was accepted has a true flag exactly when it was not asked to be encrypted or could not be. -/
theorem ssl_flag_truthful (sslConfig : Bool) (turns : List Turn)
    (h : (accept sslConfig turns ({} : Conn fold)).1 = .ok .done) :
    Truthful (accept sslConfig turns ({} : Conn fold)).2 ↔
      ¬ (sslConfig = true ∧ ∃ turn ∈ requests turns, turn.packet = some .ssl) := by
  obtain ⟨hflag,hshaken⟩ := accept0_leaves (accept_ok h)
  have hany : (requests turns).any Turn.asksSSL = true ↔ ∃ turn ∈ requests turns, turn.packet = some .ssl := by
    simp [Turn.asksSSL]
  rw [truthful_iff,hflag,hshaken,← hany,← Bool.and_eq_true]
  show false = (false || _) ↔ _
  rw [Bool.false_or,eq_comm,Bool.not_eq_true]

/-- An encrypted connection that `require_ssl` sends away. -/
theorem ssl_flag_false : ∃ (fold : Fold) (turns : List Turn),
    let r := accept true turns ({} : Conn fold)
    r.1 = .ok .done ∧ r.2.codec.handshaken = true ∧ r.2.ssl = false ∧
      requireSSL true r.2 = some ⟨.fatal,.invalidPassword,"SSL is required"⟩ :=
  ⟨⟨id,fun _ => rfl⟩,[{ packet := some .ssl },{ packet := some (.version3 0 [⟨keyUser,ascii ['a']⟩]) }],rfl,rfl,rfl,rfl⟩

theorem ssl_flag_truthful_plain :
    let turns : List Turn := [{ packet := some .gssapi },{ packet := some (.version3 0 [⟨keyUser,ascii ['a']⟩]) }]
    Truthful (accept true turns ({} : Conn ⟨id,fun _ => rfl⟩)).2 := by
  intro turns
  apply (ssl_flag_truthful true turns rfl).mpr
  rintro ⟨-,turn,hmem,hp⟩
  have hall : ∀ t ∈ requests turns, t.packet ≠ some .ssl := by decide
  exact hall turn hmem hp

end Pggat.Frontends
