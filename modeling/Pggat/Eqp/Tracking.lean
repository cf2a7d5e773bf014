import Pggat.Eqp.System

/-! The map of the middleware, with what the answers in flight will make of it, is the server's. -/
namespace Pggat.Eqp
open Pggat.Base

/-- What an answer says about the statements. -/
def Answer.apply (S : Statements) : Answer → Statements
  | parseComplete p => S.put p
  | closeComplete ⟨.preparedStatement,target⟩ => S.drop target
  | commandComplete .discardAll => fun _ => none
  | _ => S

def settled (S : Statements) (answers : List Answer) : Statements := answers.foldl Answer.apply S

theorem settled_cons (S : Statements) (a : Answer) (answers : List Answer) :
    settled S (a :: answers) = settled (a.apply S) answers := rfl

theorem settled_append (S : Statements) (answers answers' : List Answer) :
    settled S (answers ++ answers') = settled (settled S answers) answers' := List.foldl_append ..

theorem apply_commandComplete {c : Command} (h : c.told = true) (S : Statements) :
    (Answer.commandComplete c).apply S = c.run S := by
  cases c <;> simp_all [Command.told,Answer.apply,Command.run]

private theorem settled_commands {cs : List Command} (h : ∀ c ∈ cs, c.told = true) (S : Statements) :
    settled S (cs.map .commandComplete) = cs.foldl (fun S c => c.run S) S := by
  induction cs generalizing S with
  | nil => rfl
  | cons c cs ih =>
    rw [List.map_cons,settled_cons,apply_commandComplete (h c (by simp))]
    exact ih (fun c hc => h c (List.mem_cons_of_mem _ hc)) _

variable {o : Outcome}

theorem settled_progress (h : ∀ c ∈ o.ran, c.told = true) (S : Statements) :
    settled S o.progress = o.ran.foldl (fun S c => c.run S) S := by
  rw [Outcome.progress,settled_append,settled_commands h]
  split <;> rfl

def Answer.parsed : Answer → Option Parse
  | parseComplete p => some p
  | _ => none

def Answer.closed : Answer → Option Close
  | closeComplete c => some c
  | _ => none

def Message.parsed : Message → Option Parse
  | parse p => some p
  | _ => none

def Message.closed : Message → Option Close
  | close which name => closeOf which name
  | _ => none

def Answer.completes (a : Answer) : Bool := a.parsed.isSome || a.closed.isSome

variable {m : Message}

theorem Message.parsed_of_opens (h : m.opens = false) : m.parsed = none := by
  cases m <;> simp_all [opens,parsed]

theorem Message.closed_of_opens (h : m.opens = false) : m.closed = none := by
  cases m <;> simp_all [opens,closed]

variable {a : Answer}

theorem Answer.parsed_of_completes (h : a.completes = false) : a.parsed = none := by
  cases a <;> simp_all [completes,parsed]

theorem Answer.closed_of_completes (h : a.completes = false) : a.closed = none := by
  cases a <;> simp_all [completes,closed]

theorem Outcome.progress_completes (h : a ∈ o.progress) : a.completes = false := by
  rcases List.mem_append.mp h with h | h
  · obtain ⟨c,_,rfl⟩ := List.mem_map.mp h
    rfl
  · split at h
    · cases h
    · rw [List.mem_singleton.mp h]
      rfl

theorem Outcome.progress_ready {state : UInt8} {S : Statements} : .readyForQuery state S ∉ o.progress := by
  unfold progress
  split <;> simp

def State.statements (T : State) : Statements := T.preparedStatements.get

namespace System

/-- The pending queue starts with what is completed in flight, and while the batch goes on what follows is
what the server has not handled. -/
def Lined {α : Type} (s : System) (f : Answer → Option α) (g : Message → Option α) (pending : List α) : Prop :=
  ∃ more, pending = s.answers.filterMap f ++ more ∧
    (s.pg.skipping = false → (∀ a ∈ s.answers, a.clears = false) → more = s.sent.filterMap g)

/-- A `Query` in flight is alone with the messages behind it, and the unnamed statement is already gone from
the map. -/
structure Querying (s : System) (rest : List Message) : Prop where
  sent : s.sent = .query :: rest
  alone : .query ∉ rest
  answered : s.answers = []
  serving : s.pg.skipping = false
  dropped : s.tracker.statements = s.pg.statements.drop []

structure Inv (s : System) : Prop where
  agrees : .query ∉ s.sent → settled s.tracker.statements s.answers = s.pg.statements
  querying : .query ∈ s.sent → ∃ rest, s.Querying rest
  parses : s.Lined Answer.parsed Message.parsed s.tracker.pendingPreparedStatements
  closes : s.Lined Answer.closed Message.closed s.tracker.pendingCloses
  batches : s.sent.Pairwise fun m m' => m.endsBatch = true → m'.opens = false
  cleared : (∃ a ∈ s.answers, a.clears = true) → ∀ m ∈ s.sent, m.opens = false
  completions : s.answers.Pairwise fun a a' => a.clears = true → a'.completes = false
  snapshots : ∀ before state S after, s.answers = before ++ .readyForQuery state S :: after →
    settled s.tracker.statements before = S

namespace Lined
variable {α : Type} {s : System} {f : Answer → Option α} {g : Message → Option α} {pending : List α}
include s

variable {T : State}

theorem write (h : s.Lined f g pending) (m : Message) :
    Lined { s with tracker := T, sent := s.sent ++ [m] } f g (pending ++ (g m).toList) := by
  obtain ⟨more,hp,hmore⟩ := h
  refine ⟨more ++ (g m).toList,by rw [hp,List.append_assoc],fun hskip hclears => ?_⟩
  rw [hmore hskip hclears,List.filterMap_append]
  cases hg : g m <;> simp [hg]

variable {m : Message}

theorem silent (h : s.Lined f g pending) {rest : List Message} (hs : s.sent = m :: rest)
    (hm : s.pg.skipping = true ∨ g m = none) : Lined { s with sent := rest } f g pending := by
  obtain ⟨more,hp,hmore⟩ := h
  refine ⟨more,hp,fun hskip hclears => ?_⟩
  have hmore : more = s.sent.filterMap g := hmore hskip hclears
  rcases hm with hm | hm
  · exact absurd (hm.symm.trans hskip) (by decide)
  · rw [hmore,hs,List.filterMap_cons_none hm]

variable {a : Answer}

theorem answer (h : s.Lined f g pending) {rest : List Message} {pg : Postgres}
    (hs : s.sent = m :: rest)
    (hdone : f a ≠ none → s.pg.skipping = false ∧ (∀ a ∈ s.answers, a.clears = false) ∧ f a = g m)
    (hopen : f a = none → pg.skipping = false → a.clears = false → s.pg.skipping = false ∧ g m = none) :
    Lined { s with sent := rest, pg := pg, answers := s.answers ++ [a] } f g pending := by
  obtain ⟨more,hp,hmore⟩ := h
  rcases hf : f a with _ | x
  · refine ⟨more,by simp [hp,hf],fun hskip hclears => ?_⟩
    obtain ⟨hskip',hg⟩ := hopen hf hskip (hclears a (by simp))
    rw [hmore hskip' fun b hb => hclears b (List.mem_append_left _ hb),hs,List.filterMap_cons_none hg]
  · obtain ⟨hskip,hclears,hg⟩ := hdone (by simp [hf])
    refine ⟨rest.filterMap g,?_,fun _ _ => rfl⟩
    have hm : g m = some x := hg.symm.trans hf
    rw [hp,hmore hskip hclears,hs,List.filterMap_cons_some hm,List.filterMap_append]
    simp [hf]

variable {rest : List Answer}

theorem read_other (h : s.Lined f g pending) (ha : s.answers = a :: rest)
    (hf : f a = none) (hc : a.clears = false) : Lined { s with tracker := T, answers := rest } f g pending := by
  obtain ⟨more,hp,hmore⟩ := h
  refine ⟨more,by rw [hp,ha,List.filterMap_cons_none hf],fun hskip hclears => hmore hskip fun b hb => ?_⟩
  rw [ha] at hb
  exact (List.mem_cons.mp hb).elim (fun he => he ▸ hc) (hclears b)

theorem read_completion (h : s.Lined f g pending) {x : α} (ha : s.answers = a :: rest)
    (hf : f a = some x) (hc : a.clears = false) :
    ∃ pending', pending = x :: pending' ∧ ∀ T, Lined { s with tracker := T, answers := rest } f g pending' := by
  obtain ⟨more,hp,hmore⟩ := h
  rw [ha,List.filterMap_cons_some hf] at hp
  refine ⟨_,hp,fun T => ⟨more,rfl,fun hskip hclears => hmore hskip fun b hb => ?_⟩⟩
  rw [ha] at hb
  exact (List.mem_cons.mp hb).elim (fun he => he ▸ hc) (hclears b)

theorem read_clear (hrest : ∀ a ∈ rest, f a = none) (hsent : ∀ m ∈ s.sent, g m = none) :
    Lined { s with tracker := T, answers := rest } f g [] := by
  refine ⟨[],?_,fun _ _ => ?_⟩
  · simpa using List.filterMap_eq_nil_iff.mpr hrest
  · exact (List.filterMap_eq_nil_iff.mpr hsent).symm

end Lined

theorem split_concat {α : Type} {l before after : List α} {a b : α} (h : l ++ [a] = before ++ b :: after) :
    (l = before ∧ a = b) ∨ ∃ after', l = before ++ b :: after' := by
  rcases List.eq_nil_or_concat after with rfl | ⟨after',c,rfl⟩
  · obtain ⟨hl,ha⟩ := List.append_inj' h rfl
    exact .inl ⟨hl,List.singleton_inj.mp ha⟩
  · rw [List.concat_eq_append,← List.cons_append,← List.append_assoc] at h
    exact .inr ⟨after',(List.append_inj' h rfl).1⟩

namespace Inv
variable {s : System} (h : Inv s) {m : Message} {rest : List Message}
include h

theorem no_query (hs : s.sent = m :: rest) (hm : m ≠ .query) : .query ∉ s.sent := by
  intro hq
  obtain ⟨rest',hq⟩ := h.querying hq
  exact hm (List.cons.inj (hs.symm.trans hq.sent)).1

theorem silent (hs : s.sent = m :: rest) (hm : m ≠ .query) (hopen : s.pg.skipping = true ∨ m.opens = false) :
    Inv { s with sent := rest } := by
  have hq := h.no_query hs hm
  have hsub : ∀ x ∈ rest, x ∈ s.sent := fun x hx => hs ▸ List.mem_cons_of_mem m hx
  refine ⟨fun _ => h.agrees hq,fun hq' => absurd (hsub _ hq') hq,h.parses.silent hs (hopen.imp_right Message.parsed_of_opens),
    h.closes.silent hs (hopen.imp_right Message.closed_of_opens),?_,fun hc x hx => h.cleared hc x (hsub x hx),
    h.completions,h.snapshots⟩
  have hb := h.batches
  rw [hs] at hb
  exact (List.pairwise_cons.mp hb).2

variable {a : Answer}

theorem answer {pg : Postgres} (hs : s.sent = m :: rest) (hm : m ≠ .query)
    (hS : pg.statements = a.apply s.pg.statements)
    (hdone : a.completes = true → s.pg.skipping = false ∧ m.opens = true ∧ a.parsed = m.parsed ∧ a.closed = m.closed)
    (hopen : a.completes = false → pg.skipping = false → a.clears = false → s.pg.skipping = false ∧ m.opens = false)
    (hclears : a.clears = true → ∀ m ∈ rest, m.opens = false)
    (hsnap : ∀ state S, a = .readyForQuery state S → s.pg.statements = S) :
    Inv { s with sent := rest, pg := pg, answers := s.answers ++ [a] } := by
  have hq := h.no_query hs hm
  have hsub : ∀ x ∈ rest, x ∈ s.sent := fun x hx => hs ▸ List.mem_cons_of_mem m hx
  have hagrees := h.agrees hq
  have hcalm : m.opens = true → ∀ b ∈ s.answers, b.clears = false := fun ho b hb => by
    by_contra hc
    have := h.cleared ⟨b,hb,by simpa using hc⟩ m (by simp [hs])
    simp [this] at ho
  have hlined : ∀ {α : Type} {f : Answer → Option α} {g : Message → Option α} {pending : List α}, s.Lined f g pending →
      (a.completes = false → f a = none) → (m.opens = false → g m = none) → (a.completes = true → f a = g m) →
      Lined { s with sent := rest, pg := pg, answers := s.answers ++ [a] } f g pending := by
    intro α f g pending hl hf hg hfg
    refine hl.answer hs (fun hne => ?_) fun hnone hskip hc => ?_
    · have hcomp : a.completes = true := by
        by_contra hc
        exact hne (hf (by simpa using hc))
      exact ⟨(hdone hcomp).1,hcalm (hdone hcomp).2.1,hfg hcomp⟩
    · by_cases hcomp : a.completes = true
      · exact ⟨(hdone hcomp).1,(hfg hcomp).symm.trans hnone⟩
      · obtain ⟨hskip',ho⟩ := hopen (by simpa using hcomp) hskip hc
        exact ⟨hskip',hg ho⟩
  refine ⟨fun _ => ?_,fun hq' => absurd (hsub _ hq') hq,
    hlined h.parses Answer.parsed_of_completes Message.parsed_of_opens fun hc => (hdone hc).2.2.1,
    hlined h.closes Answer.closed_of_completes Message.closed_of_opens fun hc => (hdone hc).2.2.2,?_,?_,?_,?_⟩
  · show settled _ (s.answers ++ [a]) = pg.statements
    rw [settled_append,hagrees,hS]
    rfl
  · have hb := h.batches
    rw [hs] at hb
    exact (List.pairwise_cons.mp hb).2
  · rintro ⟨b,hb,hc⟩ x hx
    rcases List.mem_append.mp hb with hb | hb
    · exact h.cleared ⟨b,hb,hc⟩ x (hsub x hx)
    · rw [List.mem_singleton.mp hb] at hc
      exact hclears hc x hx
  · refine List.pairwise_append.mpr ⟨h.completions,List.pairwise_singleton _ _,fun b hb c hc hcl => ?_⟩
    rw [List.mem_singleton.mp hc]
    by_contra hcomp
    have := hcalm (hdone (by simpa using hcomp)).2.1 b hb
    simp [this] at hcl
  · intro before state S after hsplit
    rcases split_concat hsplit with ⟨rfl,ha⟩ | ⟨after',hsplit⟩
    · exact hagrees.trans (hsnap state S ha)
    · exact h.snapshots before state S after' hsplit

theorem fail (hs : s.sent = m :: rest) (hm : m ≠ .query) :
    Inv { s with sent := rest, pg := { s.pg with skipping := true }, answers := s.answers ++ [.error] } :=
  h.answer hs hm rfl (by simp [Answer.completes,Answer.parsed,Answer.closed]) (by simp) (by simp [Answer.clears])
    (by simp)

variable {o : Outcome}

theorem attempt {S : Statements} (hs : s.sent = m :: rest) (hm : m ≠ .query)
    (hskip : s.pg.skipping = false) (hS : o.ok = true → S = a.apply s.pg.statements)
    (hdone : a.completes = true → m.opens = true ∧ a.parsed = m.parsed ∧ a.closed = m.closed)
    (hopen : a.completes = false → m.opens = false)
    (hclears : o.ok = true → a.clears = true → ∀ m ∈ rest, m.opens = false)
    (hsnap : ∀ state S, a ≠ .readyForQuery state S) :
    Inv { s with sent := rest, pg := (s.pg.attempt o S [a]).1, answers := s.answers ++ (s.pg.attempt o S [a]).2 } := by
  unfold Postgres.attempt
  split
  · rename_i hok
    exact h.answer hs hm (hS hok) (fun hc => ⟨hskip,hdone hc⟩) (fun hc _ _ => ⟨hskip,hopen hc⟩) (hclears hok)
      fun state S ha => absurd ha (hsnap state S)
  · exact h.fail hs hm

theorem sync (o : Outcome) (hs : s.sent = .sync :: rest) :
    Inv { s with sent := rest, pg := (s.pg.sync o).1, answers := s.answers ++ (s.pg.sync o).2 } := by
  refine h.answer hs (by simp) rfl (by simp [Answer.completes,Answer.parsed,Answer.closed]) (by simp [Answer.clears])
    (fun _ => ?_) fun state S ha => ?_
  · have hb := h.batches
    rw [hs] at hb
    exact fun x hx => (List.pairwise_cons.mp hb).1 x hx rfl
  · cases ha
    rfl

variable {r : Postgres × List Answer}

theorem parse {p : Parse} (hs : s.sent = .parse p :: rest)
    (hskip : s.pg.skipping = false) (hfail : p.destination = [] → o.ok = false → s.pg.statements [] = none)
    (hr : s.pg.parse o p = some r) : Inv { s with sent := rest, pg := r.1, answers := s.answers ++ r.2 } := by
  unfold Postgres.parse at hr
  split at hr
  · cases hr
  · cases hr
    unfold Postgres.attempt
    split
    · exact h.answer hs (by simp) (s.pg.makeRoom_put p) (fun _ => ⟨hskip,rfl,rfl,rfl⟩)
        (by simp [Answer.completes,Answer.parsed]) (by simp [Answer.clears]) (by simp)
    · rename_i hok
      rw [Postgres.makeRoom_eq fun hd => hfail hd (by simpa using hok)]
      exact h.fail hs (by simp)

theorem close {which : UInt8} {name : GoString} {c : Close} (hs : s.sent = .close which name :: rest)
    (hskip : s.pg.skipping = false) (hc : closeOf which name = some c) :
    Inv { s with sent := rest, pg := (s.pg.close o c).1, answers := s.answers ++ (s.pg.close o c).2 } := by
  unfold Postgres.close
  rcases hv : c with ⟨_ | _,target⟩
  · exact h.attempt hs (by simp) hskip (fun _ => rfl) (fun _ => ⟨rfl,rfl,by rw [← hv,Message.closed,hc]; rfl⟩)
      (by simp [Answer.completes,Answer.closed]) (by simp [Answer.clears]) (by simp)
  · exact h.attempt hs (by simp) hskip (fun _ => rfl) (fun _ => ⟨rfl,rfl,by rw [← hv,Message.closed,hc]; rfl⟩)
      (by simp [Answer.completes,Answer.closed]) (by simp [Answer.clears]) (by simp)

theorem execute (hs : s.sent = .execute :: rest) (hskip : s.pg.skipping = false)
    (ht : s.Told o .execute rest) :
    Inv { s with sent := rest, pg := (s.pg.execute o).1, answers := s.answers ++ (s.pg.execute o).2 } := by
  unfold Postgres.execute
  rcases hran : o.ran with _ | ⟨c,more⟩
  · exact h.attempt hs (by simp) hskip (fun _ => rfl) (by simp [Answer.completes,Answer.parsed,Answer.closed]) (by simp [Message.opens])
      (by simp [Answer.clears]) (by simp)
  · have hc : o.ok = true → c.told = true ∧ (c = .discardAll → ∀ m ∈ rest, m.opens = false) := fun hok =>
      ht.1 c (by simp [Outcome.commands,hok,hran])
    exact h.attempt hs (by simp) hskip (fun hok => (apply_commandComplete (hc hok).1 _).symm)
      (by simp [Answer.completes,Answer.parsed,Answer.closed]) (by simp [Message.opens])
      (fun hok hclears => (hc hok).2 (by cases c <;> simp_all [Answer.clears])) (by simp)

private theorem query (hs : s.sent = .query :: rest) (ht : s.Told o .query rest) :
    Inv { s with sent := rest, pg := (s.pg.query o).1, answers := s.answers ++ (s.pg.query o).2 } := by
  obtain ⟨rest',hq⟩ := h.querying (by simp [hs])
  obtain rfl : rest = rest' := (List.cons.inj (hs.symm.trans hq.sent)).2
  have hbatches := h.batches
  rw [hs,List.pairwise_cons] at hbatches
  obtain ⟨hrest,hbatches⟩ := hbatches
  have hsettled : settled s.tracker.statements o.progress = (s.pg.query o).1.statements := by
    rw [settled_progress fun c hc => (ht.1 c hc).1,hq.dropped]
    rfl
  have hcompletes : ∀ a ∈ (s.pg.query o).2, a.completes = false := fun a ha =>
    (List.mem_append.mp ha).elim Outcome.progress_completes fun ha => by
      rw [List.mem_singleton.mp ha]
      rfl
  have hlined : ∀ {α : Type} {f : Answer → Option α} {g : Message → Option α} {pending : List α},
      (∀ a, a.completes = false → f a = none) →
      Lined { s with sent := rest, pg := (s.pg.query o).1, answers := s.answers ++ (s.pg.query o).2 } f g pending := by
    intro α f g pending hf
    refine ⟨pending,?_,fun _ hclears => ?_⟩
    · have hnil := List.filterMap_eq_nil_iff.mpr fun a ha => hf a (hcompletes a ha)
      simp [hq.answered,hnil]
    · have := hclears (.readyForQuery o.state (s.pg.query o).1.statements) (by simp [Postgres.query])
      simp [Answer.clears] at this
  refine ⟨fun _ => ?_,fun hmem => absurd hmem hq.alone,hlined fun _ => Answer.parsed_of_completes,
    hlined fun _ => Answer.closed_of_completes,hbatches,fun _ x hx => hrest x hx rfl,?_,?_⟩
  · show settled s.tracker.statements (s.answers ++ (o.progress ++ [.readyForQuery o.state _])) = (s.pg.query o).1.statements
    rw [hq.answered,List.nil_append,settled_append,hsettled]
    rfl
  · show List.Pairwise _ (s.answers ++ (s.pg.query o).2)
    rw [hq.answered,List.nil_append]
    exact List.pairwise_of_forall_mem_list fun a _ b hb _ => hcompletes b hb
  · intro before state S after hsplit
    replace hsplit : s.answers ++ (o.progress ++ [.readyForQuery o.state _]) = _ := hsplit
    rw [hq.answered,List.nil_append] at hsplit
    rcases split_concat hsplit with ⟨rfl,ha⟩ | ⟨after',hsplit⟩
    · cases ha
      exact hsettled
    · have hno : .readyForQuery state S ∉ o.progress := Outcome.progress_ready
      exact absurd (hsplit ▸ by simp) hno

theorem serve (hs : s.sent = m :: rest)
    (ht : s.pg.skipping = false → s.Told o m rest) (hr : s.pg.serve o m = some r) :
    Inv { s with sent := rest, pg := r.1, answers := s.answers ++ r.2 } := by
  unfold Postgres.serve at hr
  split at hr
  · rename_i hdiscard
    obtain ⟨hskip,hsync⟩ := hdiscard
    have hm : m ≠ .query := by
      rintro rfl
      obtain ⟨_,hq⟩ := h.querying (by simp [hs])
      exact absurd (hskip.symm.trans hq.serving) (by decide)
    cases hr
    simpa using h.silent hs hm (.inl hskip)
  · rename_i hhandle
    have hskip : m ≠ .sync → s.pg.skipping = false := fun hm => by simpa [hm] using hhandle
    have hplain : ∀ a, a.completes = false → a.clears = false → a.apply s.pg.statements = s.pg.statements →
        (∀ state S, a ≠ .readyForQuery state S) → m ≠ .sync → m ≠ .query → m.opens = false →
        Inv { s with sent := rest, pg := (s.pg.attempt o s.pg.statements [a]).1,
                     answers := s.answers ++ (s.pg.attempt o s.pg.statements [a]).2 } :=
      fun a hcomp hcl hS hsnap hsync hq ho => h.attempt hs hq (hskip hsync) (fun _ => hS.symm) (by simp [hcomp])
        (fun _ => ho) (by simp [hcl]) hsnap
    cases m with
    | sync =>
      cases hr
      exact h.sync o hs
    | parse p =>
      have hskip := hskip (by simp)
      exact h.parse hs hskip (fun hd => (ht hskip).2 (by simp [Message.dropsUnnamed,hd])) hr
    | close which name =>
      obtain ⟨c,hc,rfl⟩ := Option.map_eq_some_iff.mp hr
      exact h.close hs (hskip (by simp)) hc
    | query =>
      cases hr
      exact h.query hs (ht (hskip (by simp)))
    | execute =>
      have hskip := hskip (by simp)
      cases hr
      exact h.execute hs hskip (ht hskip)
    | bind p =>
      cases hr
      exact hplain .bindComplete rfl rfl rfl (by simp) (by simp) (by simp) rfl
    | describe =>
      cases hr
      exact hplain .other rfl rfl rfl (by simp) (by simp) (by simp) rfl
    | flush =>
      cases hr
      simpa using h.silent hs (by simp) (.inr rfl)

variable {T : State} {answers : List Answer}

theorem read_with (ha : s.answers = a :: answers)
    (hT : T.statements = a.apply s.tracker.statements)
    (hparses : Lined { s with tracker := T, answers := answers } Answer.parsed Message.parsed T.pendingPreparedStatements)
    (hcloses : Lined { s with tracker := T, answers := answers } Answer.closed Message.closed T.pendingCloses) :
    Inv { s with tracker := T, answers := answers } := by
  have hcompletions := h.completions
  rw [ha,List.pairwise_cons] at hcompletions
  have hsettled : ∀ l, settled T.statements l = settled s.tracker.statements (a :: l) := fun l => by
    rw [settled_cons,hT]
  refine ⟨fun hq => ?_,fun hq => ?_,hparses,hcloses,h.batches,?_,hcompletions.2,fun before state S after hsplit => ?_⟩
  · show settled T.statements answers = _
    rw [hsettled,← ha]
    exact h.agrees hq
  · obtain ⟨_,hq⟩ := h.querying hq
    exact absurd (ha.symm.trans hq.answered) (by simp)
  · rintro ⟨b,hb,hc⟩
    exact h.cleared ⟨b,by simpa [ha] using .inr hb,hc⟩
  · show settled T.statements before = S
    rw [hsettled]
    exact h.snapshots (a :: before) state S after (by rw [ha,List.cons_append,← hsplit])

private theorem read_plain (ha : s.answers = a :: answers)
    (hcompletes : a.completes = false) (hclears : a.clears = false) (hT : T.statements = a.apply s.tracker.statements)
    (hparses : T.pendingPreparedStatements = s.tracker.pendingPreparedStatements)
    (hcloses : T.pendingCloses = s.tracker.pendingCloses) : Inv { s with tracker := T, answers := answers } := by
  refine h.read_with ha hT ?_ ?_
  · rw [hparses]
    exact h.parses.read_other ha (Answer.parsed_of_completes hcompletes) hclears
  · rw [hcloses]
    exact h.closes.read_other ha (Answer.closed_of_completes hcompletes) hclears

private theorem read_clear (ha : s.answers = a :: answers)
    (hclears : a.clears = true) (hT : T.statements = a.apply s.tracker.statements)
    (hparses : T.pendingPreparedStatements = []) (hcloses : T.pendingCloses = []) :
    Inv { s with tracker := T, answers := answers } := by
  have hcompletions := h.completions
  rw [ha,List.pairwise_cons] at hcompletions
  have hsent := h.cleared ⟨a,by simp [ha],hclears⟩
  refine h.read_with ha hT ?_ ?_
  · rw [hparses]
    exact .read_clear (fun b hb => Answer.parsed_of_completes (hcompletions.1 b hb hclears)) fun m hm =>
      Message.parsed_of_opens (hsent m hm)
  · rw [hcloses]
    exact .read_clear (fun b hb => Answer.closed_of_completes (hcompletions.1 b hb hclears)) fun m hm =>
      Message.closed_of_opens (hsent m hm)

theorem read (ha : s.answers = a :: answers) :
    Inv { s with tracker := s.tracker.s2c a.reply, answers := answers } := by
  cases a with
  | parseComplete p =>
    obtain ⟨pending,hp,hlined⟩ := h.parses.read_completion ha rfl rfl
    have hT : s.tracker.parseComplete = { s.tracker with
        pendingPreparedStatements := pending
        preparedStatements := s.tracker.preparedStatements.insert p.destination p } := by
      rw [State.parseComplete,hp]
    show Inv { s with tracker := s.tracker.parseComplete, answers := answers }
    rw [hT]
    refine h.read_with ha ?_ (hlined _) (h.closes.read_other ha rfl rfl)
    funext n
    simp [State.statements,Answer.apply,Statements.put,Function.update_apply]
  | closeComplete c =>
    obtain ⟨pending,hp,hlined⟩ := h.closes.read_completion ha rfl rfl
    show Inv { s with tracker := s.tracker.closeComplete, answers := answers }
    rcases c with ⟨_ | _,target⟩
    · rw [State.closeComplete,hp]
      refine h.read_with ha ?_ (h.parses.read_other ha rfl rfl) (hlined _)
      funext n
      simp [State.statements,Answer.apply,Statements.drop,Function.update_apply]
    · rw [State.closeComplete,hp]
      exact h.read_with ha rfl (h.parses.read_other ha rfl rfl) (hlined _)
  | bindComplete =>
    show Inv { s with tracker := s.tracker.bindComplete, answers := answers }
    unfold State.bindComplete
    split
    · exact h.read_plain ha rfl rfl rfl rfl rfl
    · exact h.read_plain ha rfl rfl rfl rfl rfl
  | commandComplete c =>
    by_cases hc : c = .discardAll
    · subst hc
      exact h.read_clear ha rfl (by funext n; rfl) rfl rfl
    · have hT : s.tracker.commandComplete c.tag = s.tracker := if_neg (Command.tag_ne_discardAll hc)
      show Inv { s with tracker := s.tracker.commandComplete c.tag, answers := answers }
      rw [hT]
      exact h.read_plain ha rfl (by cases c <;> simp_all [Answer.clears]) (by cases c <;> simp_all [Answer.apply]) rfl rfl
  | readyForQuery state S =>
    show Inv { s with tracker := s.tracker.readyForQuery state, answers := answers }
    unfold State.readyForQuery
    split
    · exact h.read_clear ha rfl rfl rfl rfl
    · exact h.read_clear ha rfl rfl rfl rfl
  | error => exact h.read_plain ha rfl rfl rfl rfl rfl
  | other => exact h.read_plain ha rfl rfl rfl rfl rfl

theorem write_query (hquiet : s.Quiet) : Inv { s with tracker := s.tracker.query, sent := s.sent ++ [.query] } := by
  obtain ⟨hsent,hanswers,hskip⟩ := hquiet
  have hagrees := h.agrees (by simp [hsent])
  rw [hanswers] at hagrees
  refine ⟨fun hq => absurd (by simp) hq,fun _ => ⟨[],by simp [hsent],by simp,hanswers,hskip,?_⟩,
    by simpa [Message.parsed,State.query] using h.parses.write .query,
    by simpa [Message.closed,State.query] using h.closes.write .query,
    by simp [hsent],by simp [hanswers],h.completions,by simp [hanswers]⟩
  rw [← hagrees]
  funext n
  simp [State.statements,State.query,settled,Statements.drop,Function.update_apply]

private theorem write_with (hq : m ≠ .query) (hT : T.statements = s.tracker.statements)
    (hparses : T.pendingPreparedStatements = s.tracker.pendingPreparedStatements ++ m.parsed.toList)
    (hcloses : T.pendingCloses = s.tracker.pendingCloses ++ m.closed.toList) (hb : m.opens = true → s.WithinBatch) :
    Inv { s with tracker := T, sent := s.sent ++ [m] } := by
  have hmem : .query ∈ s.sent ++ [m] → .query ∈ s.sent := fun hmem =>
    (List.mem_append.mp hmem).elim id fun he => absurd (List.mem_singleton.mp he).symm hq
  refine ⟨fun hn => ?_,fun hmem' => ?_,?_,?_,?_,?_,h.completions,?_⟩
  · show settled T.statements s.answers = s.pg.statements
    rw [hT]
    exact h.agrees fun hmem' => hn (List.mem_append_left _ hmem')
  · obtain ⟨rest,hquery⟩ := h.querying (hmem hmem')
    refine ⟨rest ++ [m],?_,?_,hquery.answered,hquery.serving,hT.trans hquery.dropped⟩
    · simp [hquery.sent]
    · simp [hquery.alone,hq.symm]
  · rw [show ({ s with tracker := T, sent := s.sent ++ [m] } : System).tracker = T from rfl,hparses]
    exact h.parses.write m
  · rw [show ({ s with tracker := T, sent := s.sent ++ [m] } : System).tracker = T from rfl,hcloses]
    exact h.closes.write m
  · refine List.pairwise_append.mpr ⟨h.batches,List.pairwise_singleton _ _,fun x hx y hy hends => ?_⟩
    rw [List.mem_singleton.mp hy]
    by_contra ho
    have := (hb (by simpa using ho)).1 x hx
    simp [this] at hends
  · rintro ⟨a,ha,hc⟩ x hx
    rcases List.mem_append.mp hx with hx | hx
    · exact h.cleared ⟨a,ha,hc⟩ x hx
    · rw [List.mem_singleton.mp hx]
      by_contra ho
      have := (hb (by simpa using ho)).2 a ha
      simp [this] at hc
  · intro before state S after hsplit
    show settled T.statements before = S
    rw [hT]
    exact h.snapshots before state S after hsplit

private theorem write (ho : s.Orderly (.write m)) (hT : s.tracker.c2s m = some T) :
    Inv { s with tracker := T, sent := s.sent ++ [m] } := by
  cases m with
  | query =>
    cases hT
    exact h.write_query ho
  | parse p =>
    cases hT
    exact h.write_with (by simp) rfl rfl (by simp [State.parse,Message.closed]) fun _ => ho
  | close which name =>
    obtain ⟨c,hc,rfl⟩ := Option.map_eq_some_iff.mp hT
    exact h.write_with (by simp) rfl (by simp [State.close,Message.parsed]) (by simp [State.close,Message.closed,hc])
      fun _ => ho
  | bind p =>
    cases hT
    exact h.write_with (by simp) rfl (by simp [State.bind,Message.parsed]) (by simp [State.bind,Message.closed])
      (by simp [Message.opens])
  | _ =>
    cases hT
    exact h.write_with (by simp) rfl (by simp [Message.parsed]) (by simp [Message.closed]) (by simp [Message.opens])

theorem step {e : Event} {s' : System} (ho : s.Orderly e) (hs : s.step e = some s') : Inv s' := by
  cases e with
  | write m =>
    unfold System.step at hs
    rcases hT : s.tracker.c2s m with _ | T
    · simp only [hT] at hs
      cases hs
      exact h
    · simp only [hT] at hs
      cases hs
      exact h.write ho hT
  | serve o =>
    rcases hsent : s.sent with _ | ⟨m,rest⟩
    · simp [System.step,hsent] at hs
    · obtain ⟨r,hr,rfl⟩ : ∃ r, s.pg.serve o m = some r ∧
          { s with sent := rest, pg := r.1, answers := s.answers ++ r.2 } = s' := by
        simpa [System.step,hsent] using hs
      exact h.serve hsent (by simpa [Orderly,hsent] using ho) hr
  | read =>
    rcases ha : s.answers with _ | ⟨a,answers⟩
    · simp [System.step,ha] at hs
    · obtain rfl : { s with tracker := s.tracker.s2c a.reply, answers := answers } = s' := by
        simpa [System.step,ha] using hs
      exact h.read ha

end Inv

private theorem inv_start : Inv {} where
  agrees _ := rfl
  querying h := by cases h
  parses := ⟨[],rfl,fun _ _ => rfl⟩
  closes := ⟨[],rfl,fun _ _ => rfl⟩
  batches := .nil
  cleared h := by simp at h
  completions := .nil
  snapshots := by simp

private theorem reachable_inv {s : System} (h : Reachable {} Orderly step s) : Inv s :=
  h.invariant inv_start fun _ _ _ hi ho hs => hi.step ho hs

/-- In every orderly run, whenever the middleware has read a `ReadyForQuery`, its map holds exactly the
statements that the server had when it sent it, and those it still has once nothing is in flight. -/
theorem tracking_faithful {s s' : System} (h : Reachable {} Orderly step s) {state : UInt8} {S : Statements}
    {answers : List Answer} (ha : s.answers = .readyForQuery state S :: answers) (hs : s.step .read = some s') :
    s'.tracker.preparedStatements.get = S ∧
      (s'.sent = [] → s'.answers = [] → s'.tracker.preparedStatements.get = s'.pg.statements) := by
  have hinv := reachable_inv h
  have hinv' := hinv.step (show s.Orderly .read from trivial) hs
  obtain rfl : { s with tracker := s.tracker.readyForQuery state, answers := answers } = s' := by
    simpa [step,ha,State.s2c,Answer.reply] using hs
  have hmap : (s.tracker.readyForQuery state).statements = s.tracker.statements := by
    unfold State.readyForQuery
    split <;> rfl
  refine ⟨hmap.trans (hinv.snapshots [] state S answers ha),fun hsent hanswers => ?_⟩
  have hagrees := hinv'.agrees fun hq => by
    rw [hsent] at hq
    cases hq
  rw [hanswers] at hagrees
  exact hagrees

def parseOf (name : List Char) : Parse := ⟨ascii name,ascii name,[]⟩

def failingBatch : List Event :=
  [.write (.parse (parseOf ['a'])), .write (.parse (parseOf ['b'])), .write (.parse (parseOf ['c'])), .write .sync,
    .serve {}, .serve { ok := false }, .serve {}, .serve {}, .read, .read]

theorem tracking_faithful_failingBatch : ∃ s s' : System, Reachable {} Orderly step s ∧ s.step .read = some s' ∧
    s'.tracker.preparedStatements.get = s'.pg.statements ∧ s'.pg.statements (ascii ['a']) = some (parseOf ['a']) := by
  have h : Reachable {} Orderly step _ := Reachable.of_run .start (fun _ _ => id) failingBatch rfl
  exact ⟨_,_,h,rfl,(tracking_faithful h rfl rfl).2 rfl rfl,rfl⟩

/-- The middleware is about to read a `ReadyForQuery` and has another statement under the name than the
server had when it sent it. -/
def Diverges (s : System) (name : GoString) : Prop :=
  ∃ state S answers, s.answers = .readyForQuery state S :: answers ∧ s.tracker.preparedStatements.get name ≠ S name

def parsed (name : List Char) : List Event :=
  [.write (.parse (parseOf name)), .write .sync, .serve {}, .serve {}, .read, .read]

/-- Runs to a `ReadyForQuery` and the name under which the maps differ: `DEALLOCATE` and `PREPARE` are not
followed, an unnamed `Parse` that fails has dropped the old statement, a `Query` that is discarded has not,
`ReadyForQuery` and `DISCARD ALL` drop what was sent behind them, and a `Query` drops what is parsed later. -/
def divergences : List (List Event × List Char) :=
  [(parsed ['a'] ++ [.write .query, .serve { ran := [.deallocate (ascii ['a'])] }, .read],['a']),
    ([.write .query, .serve { ran := [.prepare (parseOf ['a'])] }, .read],['a']),
    (parsed [] ++ [.write (.parse (parseOf [])), .write .sync, .serve { ok := false }, .serve {}, .read],[]),
    (parsed [] ++ [.write .describe, .write .query, .write .sync, .serve { ok := false }, .serve {}, .serve {}, .read],[]),
    ([.write (.parse (parseOf ['a'])), .write .sync, .write (.parse (parseOf ['b'])), .write .sync,
      .serve {}, .serve {}, .serve {}, .serve {}, .read, .read, .read],['b']),
    ([.write .execute, .write (.parse (parseOf ['b'])), .write .sync, .serve { ran := [.discardAll] }, .serve {}, .serve {},
      .read, .read],['b']),
    ([.write (.parse (parseOf [])), .write .query, .serve {}, .serve {}, .read],[])]

theorem tracking_diverges :
    divergences.Forall fun x => ∃ s, Reachable {} (fun _ _ => True) step s ∧ s.Diverges (ascii x.2) := by
  have hrun : ∀ x ∈ divergences, ∃ s, run (fun _ _ => True) step {} x.1 = some s ∧ s.Diverges (ascii x.2) := by
    simp only [divergences,List.forall_mem_cons,List.not_mem_nil,false_imp_iff,implies_true,and_true]
    refine ⟨?_,?_,?_,?_,?_,?_,?_⟩ <;> exact ⟨_,rfl,_,_,_,rfl,by decide⟩
  refine List.forall_iff_forall_mem.mpr fun x hx => ?_
  obtain ⟨s,hs,hd⟩ := hrun x hx
  exact ⟨s,Reachable.of_run .start (fun _ _ => id) x.1 hs,hd⟩

end System
end Pggat.Eqp
