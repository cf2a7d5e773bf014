import Pggat.Base.Cycles
import Pggat.Ini.Unmarshal

/-! `ReadFile` and the files that it includes. -/
namespace Pggat.Ini
open Pggat.Base Relation

abbrev Files := List (GoString × GoString)

/-- The file that a line includes. -/
def included (line : GoString) : Option GoString :=
  if includeMark.isPrefixOf line then some (trimSpace (line.drop includeMark.length)) else none

/-- What a call has come to; `none` is a call that has not returned yet. The error of `os.ReadFile` names the path. -/
abbrev Outcome (α : Type) := Option (Except GoString α)

namespace Outcome
variable {α β γ : Type}

def andThen (o : Outcome α) (f : α → Outcome β) : Outcome β :=
  match o with
  | none => none
  | some (.error e) => some (.error e)
  | some (.ok a) => f a

def mapped (f : α → β) (o : Outcome α) : Outcome β := o.map (Except.map f)

theorem mapped_andThen (o : Outcome α) (f : α → Outcome β) (g : β → γ) :
    mapped g (andThen o f) = andThen o fun a => mapped g (f a) := by
  rcases o with _ | _ | _ <;> rfl

theorem mapped_mapped (o : Outcome α) (f : α → β) (g : β → γ) : mapped g (mapped f o) = mapped (g ∘ f) o := by
  rcases o with _ | _ | _ <;> rfl

end Outcome

/-- The loop of `ReadFile` over the lines that are left, with the text that was written so far. -/
def readLines (read : GoString → Outcome GoString) : (turns : Nat) → (result lines : GoString) → Outcome GoString
  | 0, _, _ => none
  | turns+1, result, lines =>
    let line := trimSpace (cutLine lines).1
    let lines := (cutLine lines).2
    if line = [] then
      if lines = [] then some (.ok (result ++ [10])) else readLines read turns (result ++ [10]) lines
    else
      match included line with
      | none => readLines read turns (result ++ (line ++ [10])) lines
      | some path => Outcome.andThen (read path) fun b => readLines read turns (result ++ (b ++ [10])) lines

/-- `ReadFile`, up to a depth of calls. -/
def readFile (files : Files) : (depth : Nat) → GoString → Outcome GoString
  | 0, _ => none
  | depth+1, path =>
    match files.lookup path with
    | none => some (.error path)
    | some lines => readLines (readFile files depth) (lines.length + 1) [] lines

/-- The lines that the loop puts in the place of the given ones. -/
def replaced (read : GoString → Outcome GoString) : List GoString → Outcome (List GoString)
  | [] => some (.ok [])
  | line :: rest =>
    match included line with
    | none => Outcome.mapped (line :: ·) (replaced read rest)
    | some path => Outcome.andThen (read path) fun b => Outcome.mapped (content b ++ ·) (replaced read rest)

/-- A text that is empty or ends with a line. -/
def Closed (text : GoString) : Prop := text = [] ∨ ∃ t, text = t ++ [10]

private theorem Closed.append {text : GoString} (h : Closed text) (t : GoString) :
    Closed (text ++ (t ++ [10])) ∧ content (text ++ (t ++ [10])) = content text ++ content t := by
  refine ⟨.inr ⟨text ++ t,by simp⟩,?_⟩
  rcases h with rfl | ⟨s,rfl⟩
  · rw [List.nil_append,content_append]
    simp
  · rw [List.append_assoc,List.singleton_append,content_append,content_append,content_append]
    simp

/-- With enough turns the loop ends unless a call does not return, and its text has the lines replaced. -/
theorem readLines_eq (read : GoString → Outcome GoString) {turns : Nat} {result lines : GoString}
    (h : lines.length < turns) (closed : Closed result) :
    Outcome.mapped content (readLines read turns result lines) =
      Outcome.mapped (content result ++ ·) (replaced read (content lines)) := by
  induction turns generalizing result lines with
  | zero => exact absurd h (Nat.not_lt_zero _)
  | succ turns ih =>
    obtain ⟨hc,hl⟩ := content_cutLine lines
    have next (t : GoString) (hne : lines ≠ []) :
        Outcome.mapped content (readLines read turns (result ++ (t ++ [10])) (cutLine lines).2) =
          Outcome.mapped (content result ++ ·) (Outcome.mapped (content t ++ ·) (replaced read (content (cutLine lines).2))) := by
      obtain ⟨closed',happ⟩ := closed.append t
      rw [ih (by have := hl hne; omega) closed',happ,Outcome.mapped_mapped]
      congr 1
      funext l
      exact List.append_assoc ..
    rw [readLines,hc]
    by_cases hline : trimSpace (cutLine lines).1 = []
    · simp only [if_pos hline,List.nil_append]
      split
      · rename_i hd
        have happ := (closed.append []).2
        rw [List.nil_append] at happ
        simp [hd,replaced,happ,Outcome.mapped,Except.map]
      · rename_i hd
        rw [show [10] = [] ++ [(10 : UInt8)] from rfl,next [] fun he => hd (by rw [he]; rfl),Outcome.mapped_mapped]
        rfl
    · have hne : lines ≠ [] := fun he => hline (by rw [he]; rfl)
      simp only [if_neg hline,List.singleton_append,replaced]
      cases included (trimSpace (cutLine lines).1) with
      | none =>
        simp only
        rw [next _ hne,content_trimSpace (not_mem_cutLine lines),if_neg hline]
        rfl
      | some path =>
        simp only
        rw [Outcome.mapped_andThen,Outcome.mapped_andThen]
        congr 1
        funext b
        exact next b hne

theorem readFile_none {files : Files} {path : GoString} (h : files.lookup path = none) (depth : Nat) :
    readFile files (depth + 1) path = some (.error path) := by
  rw [readFile,h]

theorem readFile_some {files : Files} {path lines : GoString} (h : files.lookup path = some lines) (depth : Nat) :
    Outcome.mapped content (readFile files (depth + 1) path) = replaced (readFile files depth) (content lines) := by
  rw [readFile,h]
  simp only
  rw [readLines_eq _ (Nat.lt_succ_self _) (.inl rfl)]
  rcases replaced (readFile files depth) (content lines) with _ | _ | _ <;> rfl

def unlines : List GoString → GoString
  | [] => []
  | [line] => line
  | line :: rest => line ++ 10 :: unlines rest

/-- A line, or in the place of an include the text that it stands for. -/
def expandLine (expand : GoString → Option GoString) (line : GoString) : Option GoString :=
  match included (trimSpace line) with
  | none => some line
  | some path => expand path

/-- The text of a file in which each include is replaced by the file that it names, expanded in turn, up to a depth of
includes. -/
def expandText (files : Files) : (depth : Nat) → GoString → Option GoString
  | 0, _ => none
  | depth+1, path => do
    let text ← files.lookup path
    let parts ← (lines text).mapM (expandLine (expandText files depth))
    return unlines parts

theorem content_unlines (parts : List GoString) : content (unlines parts) = parts.flatMap content := by
  fun_induction unlines parts with
  | case1 => rfl
  | case2 line => simp
  | case3 line rest _ ih => rw [content_append,ih,List.flatMap_cons]

def includes (ls : List GoString) : List GoString := ls.filterMap included

/-- A file that is there with all the files that it includes, however deep. -/
inductive Whole (files : Files) : GoString → Prop
  | file {path lines : GoString} (found : files.lookup path = some lines)
    (below : ∀ q ∈ includes (content lines), Whole files q) : Whole files path

/-- The file includes the other one, and all that it includes before that is whole. -/
def Includes (files : Files) (path q : GoString) : Prop :=
  ∃ lines pre post, files.lookup path = some lines ∧ includes (content lines) = pre ++ q :: post ∧
    ∀ q' ∈ pre, Whole files q'

def Succeeds (o : Outcome GoString) : Prop := ∃ b, o = some (.ok b)

section
variable {read : GoString → Outcome GoString} {ls : List GoString}

theorem replaced_of_all (h : ∀ q ∈ includes ls, Succeeds (read q)) : ∃ out, replaced read ls = some (.ok out) := by
  induction ls with
  | nil => exact ⟨[],rfl⟩
  | cons line rest ih =>
    rw [includes,List.filterMap_cons] at h
    rw [replaced]
    cases hi : included line with
    | none =>
      rw [hi] at h
      obtain ⟨out,ho⟩ := ih h
      exact ⟨line :: out,by rw [ho]; rfl⟩
    | some path =>
      rw [hi] at h
      obtain ⟨b,hb⟩ := h path List.mem_cons_self
      obtain ⟨out,ho⟩ := ih fun q hq => h q (List.mem_cons_of_mem path hq)
      exact ⟨content b ++ out,by simp only [hb,ho]; rfl⟩

/-- Up to a call that does not succeed, the loop does what this call does. -/
theorem replaced_at {pre post : List GoString} {q : GoString} (split : includes ls = pre ++ q :: post)
    (h : ∀ q' ∈ pre, Succeeds (read q')) (hq : ¬ Succeeds (read q)) :
    replaced read ls = Outcome.mapped (fun _ => []) (read q) := by
  have stays (f : List GoString → List GoString) :
      Outcome.mapped f (Outcome.mapped (fun _ => []) (read q)) = Outcome.mapped (fun _ => []) (read q) := by
    rcases hr : read q with _ | _ | b
    · rfl
    · rfl
    · exact absurd ⟨b,hr⟩ hq
  induction ls generalizing pre with
  | nil => simp [includes] at split
  | cons line rest ih =>
    rw [includes,List.filterMap_cons] at split
    rw [replaced]
    cases hi : included line with
    | none =>
      rw [hi] at split
      rw [ih split h]
      exact stays _
    | some path =>
      rw [hi] at split
      cases pre with
      | nil =>
        cases split
        show Outcome.andThen (read q) _ = _
        rcases hr : read q with _ | _ | b
        · rfl
        · rfl
        · exact absurd ⟨b,hr⟩ hq
      | cons q' pre =>
        rw [List.cons_append,List.cons.injEq] at split
        obtain ⟨rfl,split⟩ := split
        obtain ⟨b,hb⟩ := h path List.mem_cons_self
        simp only [hb]
        rw [Outcome.andThen,ih split fun q' hq' => h q' (List.mem_cons_of_mem path hq')]
        exact stays _

theorem first_without (P : GoString → Prop) (qs : List GoString) :
    (∀ q ∈ qs, P q) ∨ ∃ pre q post, qs = pre ++ q :: post ∧ (∀ q' ∈ pre, P q') ∧ ¬ P q := by
  induction qs with
  | nil => exact .inl (by simp)
  | cons x qs ih =>
    by_cases hx : P x
    · rcases ih with h | ⟨pre,q,post,rfl,hpre,hq⟩
      · exact .inl (List.forall_mem_cons.mpr ⟨hx,h⟩)
      · exact .inr ⟨x :: pre,q,post,rfl,List.forall_mem_cons.mpr ⟨hx,hpre⟩,hq⟩
    · exact .inr ⟨[],x,qs,rfl,by simp,hx⟩

end

section
variable {files : Files} {path : GoString}

theorem whole_of_succeeds {depth : Nat} (h : Succeeds (readFile files depth path)) : Whole files path := by
  induction depth generalizing path with
  | zero =>
    obtain ⟨b,hb⟩ := h
    cases hb
  | succ depth ih =>
    obtain ⟨b,hb⟩ := h
    cases hl : files.lookup path with
    | none =>
      rw [readFile_none hl] at hb
      cases hb
    | some lines =>
      have hr := readFile_some hl depth
      rw [hb] at hr
      refine .file hl fun q hq => ?_
      rcases first_without (fun q => Succeeds (readFile files depth q)) (includes (content lines)) with
        all | ⟨pre,q',post,split,hpre,hq'⟩
      · exact ih (all q hq)
      · rw [replaced_at split hpre hq'] at hr
        rcases ho : readFile files depth q' with _ | _ | b'
        · rw [ho] at hr; cases hr
        · rw [ho] at hr; cases hr
        · exact absurd ⟨b',ho⟩ hq'

/-- A file that is read and expanded at a depth, to texts with the same lines. -/
def Agrees (files : Files) (depth : Nat) (path : GoString) : Prop :=
  ∃ result text, readFile files depth path = some (.ok result) ∧ expandText files depth path = some text ∧
    content result = content text

theorem replaced_agrees {depth : Nat} {ls : List GoString} (lined : ∀ line ∈ ls, 10 ∉ line)
    (h : ∀ q ∈ includes ((ls.map trimSpace).filter (· ≠ [])), Agrees files depth q) :
    ∃ parts, ls.mapM (expandLine (expandText files depth)) = some parts ∧
      replaced (readFile files depth) ((ls.map trimSpace).filter (· ≠ [])) = some (.ok (parts.flatMap content)) := by
  induction ls with
  | nil => exact ⟨[],rfl,rfl⟩
  | cons line rest ih =>
    rw [List.forall_mem_cons] at lined
    have hcontent := content_of_not_mem lined.1
    by_cases hline : trimSpace line = []
    · have hf : ((line :: rest).map trimSpace).filter (· ≠ []) = (rest.map trimSpace).filter (· ≠ []) := by
        simp [hline]
      rw [hf] at h ⊢
      obtain ⟨parts,hm,hr⟩ := ih lined.2 h
      have he : expandLine (expandText files depth) line = some line := by
        rw [expandLine,hline]
        rfl
      refine ⟨line :: parts,by simp [he,hm],?_⟩
      rw [hr,List.flatMap_cons,hcontent,if_pos hline,List.nil_append]
    · have hf : ((line :: rest).map trimSpace).filter (· ≠ []) =
          trimSpace line :: (rest.map trimSpace).filter (· ≠ []) := by
        simp [hline]
      rw [hf] at h ⊢
      rw [includes,List.filterMap_cons] at h
      rw [replaced]
      cases hi : included (trimSpace line) with
      | none =>
        rw [hi] at h
        obtain ⟨parts,hm,hr⟩ := ih lined.2 h
        refine ⟨line :: parts,by simp [expandLine,hi,hm],?_⟩
        rw [hr,List.flatMap_cons,hcontent,if_neg hline]
        rfl
      | some path =>
        rw [hi] at h
        obtain ⟨result,text,hread,hexpand,same⟩ := h path List.mem_cons_self
        obtain ⟨parts,hm,hr⟩ := ih lined.2 fun q hq => h q (List.mem_cons_of_mem path hq)
        refine ⟨text :: parts,by simp [expandLine,hi,hexpand,hm],?_⟩
        rw [hr,List.flatMap_cons,← same]
        simp only [hread]
        rfl

/-- What holds of each of some files from a depth on holds of all of them from a depth on. -/
theorem eventually_all {P : Nat → GoString → Prop} {qs : List GoString}
    (h : ∀ q ∈ qs, ∃ depth, ∀ d, depth ≤ d → P d q) : ∃ depth, ∀ d, depth ≤ d → ∀ q ∈ qs, P d q := by
  induction qs with
  | nil => exact ⟨0,by simp⟩
  | cons q qs ih =>
    rw [List.forall_mem_cons] at h
    obtain ⟨a,ha⟩ := h.1
    obtain ⟨b,hb⟩ := ih h.2
    exact ⟨max a b,fun d hd => List.forall_mem_cons.mpr ⟨ha d (by omega),hb d (by omega)⟩⟩

theorem Whole.agrees (h : Whole files path) : ∃ depth, ∀ d, depth ≤ d → Agrees files d path := by
  induction h with
  | @file path text found below ih =>
    obtain ⟨depth,hd⟩ := eventually_all ih
    refine ⟨depth + 1,fun d h => ?_⟩
    obtain ⟨d,rfl⟩ := Nat.exists_eq_add_of_le' (Nat.le_trans (Nat.le_add_left 1 depth) h)
    obtain ⟨parts,hm,hr⟩ := replaced_agrees (fun line => not_mem_of_mem_lines) (hd d (by omega))
    have hread := readFile_some found d
    rw [content,hr] at hread
    rcases ho : readFile files (d + 1) path with _ | _ | result
    · rw [ho] at hread; cases hread
    · rw [ho] at hread; cases hread
    · rw [ho] at hread
      refine ⟨result,unlines parts,ho,by simp [expandText,found,hm],?_⟩
      rw [content_unlines]
      simpa [Outcome.mapped,Except.map] using hread

theorem Agrees.succeeds {depth : Nat} (h : Agrees files depth path) : Succeeds (readFile files depth path) := by
  obtain ⟨result,-,hread,-⟩ := h
  exact ⟨result,hread⟩

private theorem not_whole_of_error {depth : Nat} {e : GoString} (h : readFile files depth path = some (.error e)) :
    ¬ Whole files path := by
  intro whole
  induction whole generalizing depth e with
  | @file path lines found below ih =>
    cases depth with
    | zero => cases h
    | succ depth =>
      have hread := readFile_some found depth
      rw [h] at hread
      rcases first_without (fun q => Succeeds (readFile files depth q)) (includes (content lines)) with
        all | ⟨pre,q,post,split,hpre,hq⟩
      · obtain ⟨out,ho⟩ := replaced_of_all all
        rw [ho] at hread
        cases hread
      · rw [replaced_at split hpre hq] at hread
        rcases ho : readFile files depth q with _ | _ | b
        · rw [ho] at hread
          cases hread
        · exact ih q (by rw [split]; simp) ho
        · exact hq ⟨b,ho⟩

/-- A call that does not succeed for a file that is whole has not returned. -/
theorem Whole.eq_none {depth : Nat} (whole : Whole files path) (h : ¬ Succeeds (readFile files depth path)) :
    readFile files depth path = none := by
  rcases ho : readFile files depth path with _ | _ | b
  · rfl
  · exact absurd whole (not_whole_of_error ho)
  · exact absurd ⟨b,ho⟩ h

theorem acc_of_returns {depth : Nat} (h : readFile files depth path ≠ none) :
    Acc (fun q p => Includes files p q) path := by
  induction depth generalizing path with
  | zero => exact absurd rfl h
  | succ depth ih =>
    refine Acc.intro path fun q ⟨lines,pre,post,found,split,whole⟩ => ih fun hq => h ?_
    have blocked (hr : replaced (readFile files depth) (content lines) = none) :
        readFile files (depth + 1) path = none := by
      have hread := readFile_some found depth
      rw [hr] at hread
      exact Option.map_eq_none_iff.mp hread
    rcases first_without (fun q => Succeeds (readFile files depth q)) pre with all | ⟨pre',q',post',split',hpre,hq'⟩
    · refine blocked ?_
      have stuck : ¬ Succeeds (readFile files depth q) := by
        rintro ⟨b,hb⟩
        rw [hq] at hb
        cases hb
      rw [replaced_at split all stuck,hq]
      rfl
    · refine blocked ?_
      have none' := (whole q' (by rw [split']; simp)).eq_none hq'
      rw [split',List.append_assoc,List.cons_append] at split
      rw [replaced_at split hpre hq',none']
      rfl

theorem returns_of_acc (h : Acc (fun q p => Includes files p q) path) :
    ∃ depth, ∀ d, depth ≤ d → readFile files d path ≠ none := by
  induction h with
  | intro path _ ih =>
    cases hl : files.lookup path with
    | none =>
      refine ⟨1,fun d hd => ?_⟩
      obtain ⟨d,rfl⟩ := Nat.exists_eq_add_of_le' hd
      rw [readFile_none hl]
      exact Option.some_ne_none _
    | some lines =>
      rcases first_without (Whole files) (includes (content lines)) with all | ⟨pre,q,post,split,hpre,hq⟩
      · obtain ⟨depth,hd⟩ := (Whole.file hl all).agrees
        refine ⟨depth,fun d h => ?_⟩
        obtain ⟨b,hb⟩ := (hd d h).succeeds
        rw [hb]
        exact Option.some_ne_none _
      · obtain ⟨a,ha⟩ := ih q ⟨lines,pre,post,hl,split,hpre⟩
        obtain ⟨b,hb⟩ := eventually_all fun q' hq' => (hpre q' hq').agrees
        refine ⟨max a b + 1,fun d hd hnone => ?_⟩
        obtain ⟨d,rfl⟩ := Nat.exists_eq_add_of_le' (Nat.le_trans (Nat.le_add_left 1 _) hd)
        have hread := readFile_some hl d
        rw [hnone,replaced_at split (fun q' hq' => (hb d (by omega) q' hq').succeeds)
          fun h => hq (whole_of_succeeds h)] at hread
        exact ha d (by omega) (Option.map_eq_none_iff.mp hread.symm)

end

theorem mem_of_lookup {files : Files} {path text : GoString} (h : files.lookup path = some text) :
    path ∈ files.map Prod.fst := by
  by_contra hn
  rw [List.lookup_eq_none_iff.mpr fun e he => by
    simpa using fun hp => hn (List.mem_map.mpr ⟨e,he,hp.symm⟩)] at h
  cases h

/-- A file and one that it includes on some line. -/
def Names (files : Files) (path q : GoString) : Prop :=
  ∃ text, files.lookup path = some text ∧ q ∈ includes (content text)

/-- Every file below a path exists and none of them includes itself, however deep. -/
structure Acyclic (files : Files) (path : GoString) : Prop where
  exist : ∀ q, ReflTransGen (Names files) path q → (files.lookup q).isSome
  acyclic : ¬ ∃ q, ReflTransGen (Names files) path q ∧ TransGen (Names files) q q

private theorem Acyclic.whole {files : Files} {path : GoString} (h : Acyclic files path) : Whole files path := by
  have acc := (acc_iff_no_cycle (fun _ _ ⟨_,hl,_⟩ => mem_of_lookup hl) path).mpr h.acyclic
  have exist := h.exist
  clear h
  induction acc with
  | intro path _ ih =>
    obtain ⟨text,found⟩ := Option.isSome_iff_exists.mp (exist path .refl)
    refine .file found fun q hq => ?_
    have step : Names files path q := ⟨text,found,hq⟩
    exact ih q step fun q' hq' => exist q' (.head step hq')

/-- `ReadFile` returns exactly when it meets no file that includes itself before it meets one that is missing. Where
none is missing and none includes itself, its text is to `Unmarshal` what the expanded text is. -/
theorem readFile_ends_iff (files : Files) (path : GoString) :
    ((∃ depth, readFile files depth path ≠ none) ↔
      ¬ ∃ q, ReflTransGen (Includes files) path q ∧ TransGen (Includes files) q q) ∧
    (Acyclic files path → ∃ depth result text, readFile files depth path = some (.ok result) ∧
      expandText files depth path = some text ∧
      ∀ (V : Type) (setpath : V → (sec key value : GoString) → Except Failure V) (v : V),
        unmarshal setpath result v = unmarshal setpath text v) := by
  constructor
  · rw [← acc_iff_no_cycle (fun _ _ ⟨_,_,_,hl,_⟩ => mem_of_lookup hl) path]
    constructor
    · rintro ⟨depth,h⟩
      exact acc_of_returns h
    · intro h
      obtain ⟨depth,hd⟩ := returns_of_acc h
      exact ⟨depth,hd depth (Nat.le_refl _)⟩
  · intro h
    obtain ⟨depth,hd⟩ := h.whole.agrees
    obtain ⟨result,text,hread,hexpand,same⟩ := hd depth (Nat.le_refl _)
    exact ⟨depth,result,text,hread,hexpand,fun V setpath v => unmarshal_congr setpath same v⟩

/-- A file that includes itself is never read. -/
theorem readFile_self_include :
    let path := ascii ['a']
    let files : Files := [(path,includeMark ++ 32 :: path)]
    ∀ depth, readFile files depth path = none := by
  intro path files depth
  induction depth with
  | zero => rfl
  | succ depth ih =>
    have found : files.lookup path = some (includeMark ++ 32 :: path) := rfl
    have hread := readFile_some found depth
    have hc : content (includeMark ++ 32 :: path) = [includeMark ++ 32 :: path] := by decide
    have hi : included (includeMark ++ 32 :: path) = some path := by decide
    rw [hc,replaced,hi] at hread
    simp only [ih] at hread
    exact Option.map_eq_none_iff.mp hread

end Pggat.Ini
