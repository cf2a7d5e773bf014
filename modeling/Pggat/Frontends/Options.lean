import Pggat.Frontends.Startup
import Mathlib.Data.List.Induction

/-! The parameters of a startup packet: when reading them panics, and what they set. -/
namespace Pggat.Frontends
open Pggat.Base
open Pggat.Ps (Fold CIString makeCIString Parameters)

def flag : GoString := ascii ['-','c']

def flagged (sets : List GoString) : List GoString := sets.flatMap fun set => [flag,set]

/-- The fields are pairs of `-c` and `key=value`. -/
def Paired (tokens : List GoString) : Prop := ∃ sets, (∀ set ∈ sets, 61 ∈ set) ∧ tokens = flagged sets

/-- The fields are pairs of `-c` and `key=value`, and a `-c` behind them. -/
def Dangling (tokens : List GoString) : Prop := ∃ sets, (∀ set ∈ sets, 61 ∈ set) ∧ tokens = flagged sets ++ [flag]

/-- The parameter does not end the loop. -/
def Acceptable (p : Parameter) : Prop :=
  p.key ≠ keyReplication ∧ (p.key = keyOptions → Paired (fields p.value))

/-- Options with a `-c` at the end, behind parameters that are acceptable. -/
def Dangles (ps : List Parameter) : Prop :=
  ∃ before p after, ps = before ++ p :: after ∧ (∀ q ∈ before, Acceptable q) ∧ p.key = keyOptions ∧
    Dangling (fields p.value)

/-- What stands behind each flag. -/
def settings : List GoString → List GoString
  | _ :: set :: tokens => set :: settings tokens
  | _ => []

variable {fold : Fold}

/-- The key and the value that a `key=value` sets. -/
def assignment (fold : Fold) (set : GoString) : List (CIString fold × GoString) :=
  ((cut 61 set).map fun kv => (makeCIString fold kv.1,kv.2)).toList

/-- The keys and the values that a parameter sets. -/
def assignments (fold : Fold) (p : Parameter) : List (CIString fold × GoString) :=
  if p.key = keyOptions then (settings (fields p.value)).flatMap (assignment fold)
  else if p.key = keyUser ∨ p.key = keyDatabase ∨ p.key = keyReplication ∨ protocolExtension.isPrefixOf p.key then []
  else [(makeCIString fold p.key,p.value)]

def lastValue : List (CIString fold × GoString) → CIString fold → Option GoString
  | [], _ => none
  | a :: as, key => (lastValue as key).or (if key = a.1 then some a.2 else none)

def Conn.assign (c : Conn fold) (as : List (CIString fold × GoString)) : Conn fold :=
  { c with initialParameters := as.foldl (fun m a => m.insert a.1 a.2) c.initialParameters }

theorem get_assign (c : Conn fold) (as : List (CIString fold × GoString)) (key : CIString fold) :
    (c.assign as).initialParameters.get key = (lastValue as key).or (c.initialParameters.get key) := by
  induction as generalizing c with
  | nil => rfl
  | cons a as ih =>
    have hstep := ih (c.assign [a])
    rw [show (c.assign (a :: as)) = (c.assign [a]).assign as from rfl,hstep,lastValue]
    show (lastValue as key).or (Map.get (c.initialParameters.insert a.1 a.2) key) = _
    rw [Map.get_insert]
    cases lastValue as key with
    | some v => rfl
    | none =>
      split
      · rfl
      · rfl

theorem flagged_cons (set : GoString) (sets : List GoString) : flagged (set :: sets) = flag :: set :: flagged sets := rfl

theorem not_dangling_nil : ¬ Dangling [] := by
  rintro ⟨sets,-,h⟩
  simp at h

variable {token : GoString}

private theorem dangling_singleton : Dangling [token] ↔ token = flag := by
  constructor
  · rintro ⟨sets,-,h⟩
    cases sets with
    | nil => exact (List.cons.inj h).1
    | cons set sets => simp [flagged_cons] at h
  · rintro rfl
    exact ⟨[],by simp,rfl⟩

variable {set : GoString} {tokens : List GoString}

private theorem flagged_tail (tail : List GoString) (short : tail.length < 2) :
    (∃ sets, (∀ set ∈ sets, 61 ∈ set) ∧ token :: set :: tokens = flagged sets ++ tail) ↔
      token = flag ∧ 61 ∈ set ∧ ∃ sets, (∀ set ∈ sets, 61 ∈ set) ∧ tokens = flagged sets ++ tail := by
  constructor
  · rintro ⟨sets,hsets,h⟩
    cases sets with
    | nil =>
      rw [← show _ = tail from h,List.length_cons,List.length_cons] at short
      omega
    | cons s sets =>
      cases h
      exact ⟨rfl,hsets set List.mem_cons_self,sets,fun s hs => hsets s (List.mem_cons_of_mem _ hs),rfl⟩
  · rintro ⟨rfl,hset,sets,hsets,rfl⟩
    exact ⟨set :: sets,List.forall_mem_cons.mpr ⟨hset,hsets⟩,rfl⟩

private theorem dangling_cons :
    Dangling (token :: set :: tokens) ↔ token = flag ∧ 61 ∈ set ∧ Dangling tokens :=
  flagged_tail _ (by decide)

private theorem paired_nil : Paired [] := ⟨[],by simp,rfl⟩

private theorem not_paired_singleton : ¬ Paired [token] := by
  rintro ⟨sets,-,h⟩
  cases sets with
  | nil => cases h
  | cons set sets => simp [flagged_cons] at h

private theorem paired_cons :
    Paired (token :: set :: tokens) ↔ token = flag ∧ 61 ∈ set ∧ Paired tokens := by
  simpa only [Paired,List.append_nil] using flagged_tail [] (by decide)

/-- The loop over the options sets each pair, panics at a dangling flag, and refuses all else. -/
theorem setOptions_spec (tokens : List GoString) (c : Conn fold) :
    (Paired tokens ∧ ¬ Dangling tokens ∧
      setOptions tokens c = (.ok (),c.assign ((settings tokens).flatMap (assignment fold)))) ∨
    (Dangling tokens ∧ ∃ c', setOptions tokens c = (.error .panic,c')) ∨
    (¬ Paired tokens ∧ ¬ Dangling tokens ∧ ∃ e c', setOptions tokens c = (.error (.error e),c')) := by
  induction tokens using List.twoStepInduction generalizing c with
  | nil => exact .inl ⟨paired_nil,not_dangling_nil,rfl⟩
  | singleton token =>
    by_cases hflag : token = flag
    · refine .inr (.inl ⟨dangling_singleton.mpr hflag,?_⟩)
      simp only [setOptions,if_pos (show token = ascii ['-','c'] from hflag)]
      exact ⟨_,rfl⟩
    · refine .inr (.inr ⟨not_paired_singleton,mt dangling_singleton.mp hflag,?_⟩)
      simp only [setOptions,if_neg (show ¬ token = ascii ['-','c'] from hflag)]
      exact ⟨_,_,rfl⟩
  | cons_cons token set tokens ih _ =>
    rw [dangling_cons,paired_cons]
    by_cases hflag : token = flag
    · simp only [setOptions,if_pos (show token = ascii ['-','c'] from hflag)]
      cases hcut : cut 61 set with
      | none =>
        have hset := cut_eq_none.mp hcut
        refine .inr (.inr ⟨fun h => hset h.2.1,fun h => hset h.2.1,?_⟩)
        exact ⟨_,_,rfl⟩
      | some kv =>
        have hset : 61 ∈ set := by
          by_contra hmem
          rw [cut_eq_none.mpr hmem] at hcut
          cases hcut
        have hassign : assignment fold set = [(makeCIString fold kv.1,kv.2)] := by
          rw [assignment,hcut]
          rfl
        have hstep : setParameter kv.1 kv.2 c = (.ok (),c.assign (assignment fold set)) := by
          rw [hassign]
          rfl
        simp only [Action.bind_ok hstep]
        rcases ih (c.assign (assignment fold set)) with ⟨hp,hd,hr⟩ | ⟨hd,hr⟩ | ⟨hp,hd,hr⟩
        · refine .inl ⟨⟨hflag,hset,hp⟩,fun h => hd h.2.2,?_⟩
          rw [hr,settings,List.flatMap_cons,hassign]
          rfl
        · exact .inr (.inl ⟨⟨hflag,hset,hd⟩,hr⟩)
        · exact .inr (.inr ⟨fun h => hp h.2.2,fun h => hd h.2.2,hr⟩)
    · simp only [setOptions,if_neg (show ¬ token = ascii ['-','c'] from hflag)]
      refine .inr (.inr ⟨fun h => hflag h.1,fun h => hflag h.1,?_⟩)
      exact ⟨_,_,rfl⟩

/-- A turn of the loop over the parameters, as far as it reaches the initial parameters. -/
theorem setStartupParameter_spec (p : Parameter) (c : Conn fold) :
    (Acceptable p ∧ ¬ (p.key = keyOptions ∧ Dangling (fields p.value)) ∧
      ∃ unsupported c', setStartupParameter p c = (.ok unsupported,c') ∧
        c'.initialParameters = (c.assign (assignments fold p)).initialParameters) ∨
    (p.key = keyOptions ∧ Dangling (fields p.value) ∧ ∃ c', setStartupParameter p c = (.error .panic,c')) ∨
    (¬ Acceptable p ∧ ¬ (p.key = keyOptions ∧ Dangling (fields p.value)) ∧
      ∃ e c', setStartupParameter p c = (.error (.error e),c')) := by
  by_cases hoptions : p.key = keyOptions
  · have huser : ¬ p.key = keyUser := by rw [hoptions]; decide
    have hdatabase : ¬ p.key = keyDatabase := by rw [hoptions]; decide
    have hreplication : ¬ p.key = keyReplication := by rw [hoptions]; decide
    rw [setStartupParameter,assignments,if_neg huser,if_neg hdatabase,if_pos hoptions,if_pos hoptions]
    rcases setOptions_spec (fields p.value) c with ⟨hp,hd,hr⟩ | ⟨hd,c',hr⟩ | ⟨hp,hd,e,c',hr⟩
    · exact .inl ⟨⟨hreplication,fun _ => hp⟩,fun h => hd h.2,_,_,Action.bind_ok hr,rfl⟩
    · exact .inr (.inl ⟨hoptions,hd,c',Action.bind_error hr⟩)
    · exact .inr (.inr ⟨fun h => hp (h.2 hoptions),fun h => hd h.2,e,c',Action.bind_error hr⟩)
  · by_cases hreplication : p.key = keyReplication
    · have huser : ¬ p.key = keyUser := by rw [hreplication]; decide
      have hdatabase : ¬ p.key = keyDatabase := by rw [hreplication]; decide
      refine .inr (.inr ⟨fun h => h.1 hreplication,fun h => hoptions h.1,?_⟩)
      rw [setStartupParameter,if_neg huser,if_neg hdatabase,if_neg hoptions,if_pos hreplication]
      exact ⟨_,_,rfl⟩
    · refine .inl ⟨⟨hreplication,fun h => absurd h hoptions⟩,fun h => hoptions h.1,?_⟩
      rw [setStartupParameter,assignments,if_neg hoptions,if_neg hoptions,if_neg hreplication]
      by_cases huser : p.key = keyUser
      · rw [if_pos huser,if_pos (.inl huser)]
        exact ⟨_,_,rfl,rfl⟩
      by_cases hdatabase : p.key = keyDatabase
      · rw [if_neg huser,if_pos hdatabase,if_pos (.inr (.inl hdatabase))]
        exact ⟨_,_,rfl,rfl⟩
      rw [if_neg huser,if_neg hdatabase]
      by_cases hext : protocolExtension.isPrefixOf p.key = true
      · rw [if_pos hext,if_pos (.inr (.inr (.inr hext)))]
        exact ⟨_,_,rfl,rfl⟩
      · have hnone : ¬ (p.key = keyUser ∨ p.key = keyDatabase ∨ p.key = keyReplication ∨
            protocolExtension.isPrefixOf p.key = true) := by
          rintro (h | h | h | h)
          · exact huser h
          · exact hdatabase h
          · exact hreplication h
          · exact hext h
        rw [if_neg hext,if_neg hnone]
        exact ⟨_,_,rfl,rfl⟩

private theorem not_dangles_nil : ¬ Dangles [] := by
  rintro ⟨before,p,after,h,-⟩
  simp at h

variable {ps : List Parameter}

/-- A flag dangles in the first parameter, or behind it when it is acceptable. -/
theorem dangles_cons {p : Parameter} :
    Dangles (p :: ps) ↔ (p.key = keyOptions ∧ Dangling (fields p.value)) ∨ (Acceptable p ∧ Dangles ps) := by
  constructor
  · rintro ⟨before,q,after,h,hbefore,hq⟩
    cases before with
    | nil =>
      obtain ⟨rfl,-⟩ := List.cons.inj h
      exact .inl hq
    | cons b before =>
      obtain ⟨rfl,rfl⟩ := List.cons.inj h
      exact .inr ⟨hbefore p List.mem_cons_self,before,q,after,rfl,fun r hr => hbefore r (List.mem_cons_of_mem _ hr),hq⟩
  · rintro (hp | ⟨hp,before,q,after,rfl,hbefore,hq⟩)
    · exact ⟨[],p,ps,rfl,by simp,hp⟩
    · refine ⟨p :: before,q,after,rfl,?_,hq⟩
      intro r hr
      rcases List.mem_cons.mp hr with rfl | hr
      · exact hp
      · exact hbefore r hr

/-- The loop over the parameters makes all assignments in their order, or panics at a dangling flag, or refuses. -/
theorem setStartupParameters_spec (ps : List Parameter) (c : Conn fold) :
    (¬ Dangles ps ∧ ∃ unsupported c', setStartupParameters ps c = (.ok unsupported,c') ∧
      c'.initialParameters = (c.assign (ps.flatMap (assignments fold))).initialParameters) ∨
    (Dangles ps ∧ ∃ c', setStartupParameters ps c = (.error .panic,c')) ∨
    (¬ Dangles ps ∧ ∃ e c', setStartupParameters ps c = (.error (.error e),c')) := by
  induction ps generalizing c with
  | nil => exact .inl ⟨not_dangles_nil,_,_,rfl,rfl⟩
  | cons p ps ih =>
    rw [dangles_cons,setStartupParameters]
    rcases setStartupParameter_spec p c with ⟨hp,hd,u,c₁,hr,hc₁⟩ | ⟨hk,hd,c₁,hr⟩ | ⟨hp,hd,e,c₁,hr⟩
    · rw [Action.bind_ok hr]
      rcases ih c₁ with ⟨hnot,u',c₂,hr',hc₂⟩ | ⟨hdang,c₂,hr'⟩ | ⟨hnot,e,c₂,hr'⟩
      · refine .inl ⟨?_,_,c₂,Action.bind_ok hr',?_⟩
        · rintro (h | h)
          · exact hd h
          · exact hnot h.2
        · rw [hc₂]
          simp only [Conn.assign,hc₁,List.flatMap_cons,List.foldl_append]
      · exact .inr (.inl ⟨.inr ⟨hp,hdang⟩,c₂,Action.bind_error hr'⟩)
      · refine .inr (.inr ⟨?_,e,c₂,Action.bind_error hr'⟩)
        rintro (h | h)
        · exact hd h
        · exact hnot h.2
    · exact .inr (.inl ⟨.inl ⟨hk,hd⟩,c₁,Action.bind_error hr⟩)
    · refine .inr (.inr ⟨?_,e,c₁,Action.bind_error hr⟩)
      rintro (h | h)
      · exact hd h
      · exact hp h.1

theorem write_spec (turn : Turn) (reply : Reply) (c : Conn fold) :
    (∃ c', write turn reply c = (.ok (),c') ∧ c'.initialParameters = c.initialParameters) ∨
    ∃ e c', write turn reply c = (.error (.error e),c') := by
  unfold write
  split
  · exact .inl ⟨_,rfl,rfl⟩
  · exact .inr ⟨_,_,rfl⟩

private theorem negotiate_spec (turn : Turn) (minorVersion : Int) (unsupported : List GoString) (c : Conn fold) :
    (∃ c', negotiate turn minorVersion unsupported c = (.ok (),c') ∧ c'.initialParameters = c.initialParameters) ∨
    ∃ e c', negotiate turn minorVersion unsupported c = (.error (.error e),c') := by
  unfold negotiate
  split
  · exact write_spec turn _ c
  · exact .inl ⟨c,rfl,rfl⟩

private theorem finishStartup_spec (c : Conn fold) :
    (∃ c', finishStartup c = (.ok .done,c') ∧ c'.initialParameters = c.initialParameters) ∨
    ∃ e c', finishStartup c = (.error (.error e),c') := by
  unfold finishStartup
  split
  · exact .inr ⟨_,_,rfl⟩
  · split
    · exact .inl ⟨_,rfl,rfl⟩
    · exact .inl ⟨_,rfl,rfl⟩

variable {turn : Turn}

theorem startup0_version3 (sslConfig : Bool) {minorVersion : Int}
    (hp : turn.packet = some (.version3 minorVersion ps)) (c : Conn fold) :
    (¬ Dangles ps ∧ ∃ c', startup0 sslConfig turn c = (.ok .done,c') ∧
      c'.initialParameters = (c.assign (ps.flatMap (assignments fold))).initialParameters) ∨
    (Dangles ps ∧ ∃ c', startup0 sslConfig turn c = (.error .panic,c')) ∨
    (¬ Dangles ps ∧ ∃ e c', startup0 sslConfig turn c = (.error (.error e),c')) := by
  rw [startup0,hp]
  rcases setStartupParameters_spec ps c with ⟨hnot,u,c₁,hr,hc₁⟩ | ⟨hd,c₁,hr⟩ | ⟨hnot,e,c₁,hr⟩
  · simp only [Action.bind_ok hr]
    rcases negotiate_spec turn minorVersion u c₁ with ⟨c₂,hn,hc₂⟩ | ⟨e,c₂,hn⟩
    · rw [Action.bind_ok hn]
      rcases finishStartup_spec c₂ with ⟨c₃,hf,hc₃⟩ | ⟨e,c₃,hf⟩
      · exact .inl ⟨hnot,c₃,hf,hc₃.trans (hc₂.trans hc₁)⟩
      · exact .inr (.inr ⟨hnot,e,c₃,hf⟩)
    · exact .inr (.inr ⟨hnot,e,c₂,Action.bind_error hn⟩)
  · exact .inr (.inl ⟨hd,c₁,Action.bind_error hr⟩)
  · exact .inr (.inr ⟨hnot,e,c₁,Action.bind_error hr⟩)

private theorem enableSSL_spec (turn : Turn) (c : Conn fold) :
    (∃ c', enableSSL turn c = (.ok (),c')) ∨ ∃ e c', enableSSL turn c = (.error (.error e),c') := by
  unfold enableSSL
  split
  · exact .inr ⟨_,_,rfl⟩
  · simp only
    split
    · exact .inr ⟨_,_,rfl⟩
    · split
      · exact .inr ⟨_,_,rfl⟩
      · split
        · exact .inr ⟨_,_,rfl⟩
        · exact .inl ⟨_,rfl⟩

private theorem startup0_other (sslConfig : Bool) (hp : ∀ minorVersion ps, turn.packet ≠ some (.version3 minorVersion ps))
    (c : Conn fold) : (startup0 sslConfig turn c).1 ≠ .error .panic := by
  have hanswer : ∀ (reply : Reply) (k : ConnM fold Outcome), (∀ c, (k c).1 ≠ .error .panic) →
      ((write turn reply >>= fun _ => k) c).1 ≠ .error .panic := by
    intro reply k hk
    rcases write_spec turn reply c with ⟨c',hw,-⟩ | ⟨e,c',hw⟩
    · rw [Action.bind_ok hw]
      exact hk c'
    · rw [Action.bind_error hw]
      simp
  have hagain : ∀ c : Conn fold, ((pure .again : ConnM fold Outcome) c).1 ≠ .error .panic := by
    intro c h
    cases h
  have hrefused : ∀ (code : Code) (message : String), ((refuse code message : ConnM fold Outcome) c).1 ≠ .error .panic := by
    intro code message h
    cases h
  unfold startup0
  cases hpacket : turn.packet with
  | none =>
    intro h
    cases h
  | some packet =>
    cases packet with
    | cancel key =>
      intro h
      cases h
    | ssl =>
      cases sslConfig with
      | false => exact hanswer _ _ hagain
      | true =>
        refine hanswer _ _ fun c => ?_
        rcases enableSSL_spec turn c with ⟨c',he⟩ | ⟨e,c',he⟩
        · rw [Action.bind_ok he]
          exact hagain c'
        · rw [Action.bind_error he]
          simp
    | gssapi => exact hanswer _ _ hagain
    | otherControl => exact hrefused _ _
    | version3 minorVersion ps => exact absurd hpacket (hp minorVersion ps)
    | otherVersion => exact hrefused _ _

/-- Reading a startup packet panics exactly at a dangling flag. When it succeeds, each key that the packet sets has the
value of its last occurrence, and the other keys are as they were. -/
theorem startup_options (sslConfig : Bool) (turn : Turn) (c : Conn fold) :
    ((startup0 sslConfig turn c).1 ≠ .error .panic ↔
      ∀ minorVersion ps, turn.packet = some (.version3 minorVersion ps) → ¬ Dangles ps) ∧
    ∀ minorVersion ps outcome, turn.packet = some (.version3 minorVersion ps) →
      (startup0 sslConfig turn c).1 = .ok outcome → ∀ key,
        (startup0 sslConfig turn c).2.initialParameters.get key =
          (lastValue (ps.flatMap (assignments fold)) key).or (c.initialParameters.get key) := by
  constructor
  · constructor
    · intro hpanic minorVersion ps hp hd
      rcases startup0_version3 sslConfig hp c with ⟨hnot,-⟩ | ⟨-,c',hr⟩ | ⟨hnot,-⟩
      · exact hnot hd
      · exact hpanic (by rw [hr])
      · exact hnot hd
    · intro hnot
      by_cases hp : ∃ minorVersion ps, turn.packet = some (.version3 minorVersion ps)
      · obtain ⟨minorVersion,ps,hp⟩ := hp
        rcases startup0_version3 sslConfig hp c with ⟨-,c',hr,-⟩ | ⟨hd,-⟩ | ⟨-,e,c',hr⟩
        · rw [hr]
          simp
        · exact absurd hd (hnot minorVersion ps hp)
        · rw [hr]
          simp
      · exact startup0_other sslConfig (fun minorVersion ps h => hp ⟨minorVersion,ps,h⟩) c
  · intro minorVersion ps outcome hp hok key
    rcases startup0_version3 sslConfig hp c with ⟨-,c',hr,hc'⟩ | ⟨-,c',hr⟩ | ⟨-,e,c',hr⟩
    · rw [hr,← get_assign]
      exact congrArg (Map.get · key) hc'
    · rw [hr] at hok
      cases hok
    · rw [hr] at hok
      cases hok

/-- `options` of `-c` alone, from a client that has not even authenticated. -/
theorem startup_panics : ∃ (fold : Fold) (turn : Turn) (c : Conn fold),
    turn.packet = some (.version3 0 [⟨keyUser,ascii ['a']⟩,⟨keyOptions,ascii ['-','c']⟩]) ∧
      (startup0 false turn c).1 = .error .panic :=
  ⟨⟨id,fun _ => rfl⟩,⟨some (.version3 0 [⟨keyUser,ascii ['a']⟩,⟨keyOptions,ascii ['-','c']⟩]),true,true,0,true⟩,{},rfl,rfl⟩

theorem startup_options_twice :
    let fold : Fold := ⟨id,fun _ => rfl⟩
    let turn : Turn := { packet := some (.version3 0 [⟨keyUser,ascii ['a']⟩,⟨ascii ['k'],ascii ['v']⟩,
      ⟨keyOptions,ascii ['-','c',' ','k','=','w']⟩]) }
    (startup0 false turn ({} : Conn fold)).1 = .ok .done ∧
      (startup0 false turn ({} : Conn fold)).2.initialParameters.get (makeCIString fold (ascii ['k'])) =
        some (ascii ['w']) := by
  intro fold turn
  have hok : (startup0 false turn ({} : Conn fold)).1 = .ok .done := rfl
  refine ⟨hok,?_⟩
  rw [(startup_options false turn ({} : Conn fold)).2 0 _ .done rfl hok]
  decide

end Pggat.Frontends
