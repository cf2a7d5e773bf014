import Pggat.Kitchen.Menu
import Pggat.Kitchen.Ratings
import Pggat.Kitchen.System

/-! The dials of a call that has the kitchen for itself, and the loop of `Cook` over the recipes that it has sorted. -/
namespace Pggat.Kitchen
open Pggat.Base

def Recipe.Full (r : Recipe) : Prop := r.maxConnections ≠ 0 ∧ r.maxConnections ≤ r.count

variable {r : Recipe}

theorem Recipe.allocate_eq_none : r.allocate = none ↔ r.Full := by
  simp [allocate,Full]

theorem Recipe.allocate_eq_some {r' : Recipe} (h : r.allocate = some r') : r' = { r with count := r.count + 1 } := by
  rw [allocate] at h
  split at h
  · cases h
  · exact (Option.some.inj h).symm

namespace Chef

/-- `Dial`. A socket on which the handshake has failed stays open. -/
def dial (s : Chef) (r : RecipeId) : Attempt → Option Conn × Chef
  | .refused => (none,s)
  | .rejected => (none,s.connect r)
  | .ready => (some s.dialed,s.connect r)

/-- The dials of `Learn`. Once one has failed, the slots that are left are free again. -/
def dialInitial (r : RecipeId) (attempt : Nat → Attempt) : Nat → Chef → List Conn × Chef
  | 0, s => ([],s)
  | left+1, s =>
    match s.dial r (attempt left) with
    | (none,s) => ([],(fun s => s.free r)^[left + 1] s)
    | (some conn,s) => (conn :: (dialInitial r attempt left s).1,(dialInitial r attempt left s).2)

/-- `Learn`, of a recipe that nothing else uses. -/
def learnRecipe (s : Chef) (name : GoString) (recipe : Recipe) (attempt : Nat → Attempt) (spare : Nat) : Chef :=
  let (n,recipe) := recipe.allocateInitial
  let (added,chef) := dialInitial s.made attempt n { s.setRecipe s.made recipe with made := s.made + 1 }
  (chef.learn name s.made added spare).2

/-- The dial of `score`, whose connection is closed at the end. -/
def probe (s : Chef) (r : RecipeId) (attempt : Attempt) : Chef :=
  match s.dial r attempt with
  | (none,s) => s
  | (some conn,s) => s.shut conn

/-- The loop of `Cook` over the recipes in their order. -/
def serve (attempt : RecipeId → Attempt) : List RecipeId → Chef → Result × Chef
  | [], s => (.noRecipes,s)
  | r :: rest, s =>
    match (s.recipes r).allocate with
    | none => serve attempt rest s
    | some recipe =>
      match (s.setRecipe r recipe).dial r (attempt r) with
      | (some conn,s) => (.cooked conn,s.insert r conn)
      | (none,s) => if rest = [] then (.failed,s.free r) else serve attempt rest (s.free r)

/-- Only sockets have been opened or closed. -/
structure Aside (s s' : Chef) : Prop where
  recipes : s'.recipes = s.recipes
  made : s'.made = s.made
  score : s'.score = s.score
  conns : s'.conns = s.conns
  byName : s'.byName = s.byName
  byConn : s'.byConn = s.byConn
  order : s'.order = s.order
  arrays : s'.arrays = s.arrays

namespace Aside
variable {s s' s'' : Chef}

theorem refl (s : Chef) : s.Aside s := ⟨rfl,rfl,rfl,rfl,rfl,rfl,rfl,rfl⟩

theorem trans (h : s.Aside s') (h' : s'.Aside s'') : s.Aside s'' where
  recipes := h'.recipes.trans h.recipes
  made := h'.made.trans h.made
  score := h'.score.trans h.score
  conns := h'.conns.trans h.conns
  byName := h'.byName.trans h.byName
  byConn := h'.byConn.trans h.byConn
  order := h'.order.trans h.order
  arrays := h'.arrays.trans h.arrays

theorem shares (h : s.Aside s') : s.Shares s' := ⟨h.byName,h.order,h.arrays⟩

end Aside

theorem dial_aside (s : Chef) (r : RecipeId) (a : Attempt) : s.Aside (s.dial r a).2 := by
  cases a <;> exact ⟨rfl,rfl,rfl,rfl,rfl,rfl,rfl,rfl⟩

theorem probe_aside (s : Chef) (r : RecipeId) (a : Attempt) : s.Aside (s.probe r a) := by
  cases a <;> exact ⟨rfl,rfl,rfl,rfl,rfl,rfl,rfl,rfl⟩

variable {s : Chef} {r : RecipeId} {recipe : Recipe}

/-- A dial for a slot that fails leaves the recipe with the slots that it had. -/
theorem failed_aside (h : (s.recipes r).allocate = some recipe) (a : Attempt) :
    s.Aside (((s.setRecipe r recipe).dial r a).2.free r) := by
  have free : recipe.free = s.recipes r := by
    rw [Recipe.allocate_eq_some h,Recipe.free,Int.add_sub_cancel]
  have dialed := (s.setRecipe r recipe).dial_aside r a
  refine ⟨?_,dialed.made,dialed.score,dialed.conns,dialed.byName,dialed.byConn,dialed.order,dialed.arrays⟩
  show Function.update ((s.setRecipe r recipe).dial r a).2.recipes r (((s.setRecipe r recipe).dial r a).2.recipes r).free =
    s.recipes
  rw [dialed.recipes]
  simp [setRecipe,free]

/-- A connection of a recipe has come into the kitchen, in a slot of its own. -/
structure Cooked (s s' : Chef) (r : RecipeId) (conn : Conn) : Prop where
  recipes : s'.recipes = Function.update s.recipes r { s.recipes r with count := (s.recipes r).count + 1 }
  conns : s'.conns = Function.update s.conns r (conn :: s.conns r)
  byConn : s'.byConn = s.byConn.insert conn r
  origin : s'.origin conn = r
  opened : conn ∈ s'.opened
  made : s'.made = s.made
  score : s'.score = s.score
  shares : s.Shares s'

theorem cooked_ready (h : (s.recipes r).allocate = some recipe) :
    s.Cooked (((s.setRecipe r recipe).connect r).insert r s.dialed) r s.dialed where
  recipes := by rw [Recipe.allocate_eq_some h]; rfl
  conns := rfl
  byConn := rfl
  origin := by simp [insert,connect,setRecipe]
  opened := by simp [insert,connect,setRecipe]
  made := rfl
  score := rfl
  shares := ⟨rfl,rfl,rfl⟩

variable {s' s'' : Chef}

theorem Aside.cooked {conn : Conn} (h : s.Aside s') (h' : s'.Cooked s'' r conn) :
    s.Cooked s'' r conn where
  recipes := by rw [h'.recipes,h.recipes]
  conns := by rw [h'.conns,h.conns]
  byConn := by rw [h'.byConn,h.byConn]
  origin := h'.origin
  opened := h'.opened
  made := h'.made.trans h.made
  score := h'.score.trans h.score
  shares := ⟨h'.shares.byName.trans h.byName,h'.shares.order.trans h.order,h'.shares.arrays.trans h.arrays⟩

/-- The names, the slice and the scores are as they were. -/
structure Settled (s s' : Chef) : Prop extends s.Shares s' where
  score : s'.score = s.score
  made : s'.made = s.made

theorem Settled.trans (h : s.Settled s') (h' : s'.Settled s'') : s.Settled s'' where
  byName := h'.byName.trans h.byName
  order := h'.order.trans h.order
  arrays := h'.arrays.trans h.arrays
  score := h'.score.trans h.score
  made := h'.made.trans h.made

theorem Aside.settled (h : s.Aside s') : s.Settled s' := ⟨h.shares,h.score,h.made⟩

private theorem frees_settled (r : RecipeId) (n : Nat) (s : Chef) : s.Settled ((fun s => s.free r)^[n] s) := by
  induction n generalizing s with
  | zero => exact (Aside.refl s).settled
  | succ n ih =>
    have freed : s.Settled (s.free r) := ⟨⟨rfl,rfl,rfl⟩,rfl,rfl⟩
    exact freed.trans (ih (s.free r))

theorem dialInitial_settled (r : RecipeId) (attempt : Nat → Attempt) (n : Nat) (s : Chef) :
    s.Settled (dialInitial r attempt n s).2 := by
  induction n generalizing s with
  | zero => exact (Aside.refl s).settled
  | succ n ih =>
    have dialed := (s.dial_aside r (attempt n)).settled
    rw [dialInitial]
    generalize s.dial r (attempt n) = d at dialed
    obtain ⟨conn,chef⟩ := d
    cases conn with
    | none => exact dialed.trans (frees_settled r (n + 1) chef)
    | some conn => exact dialed.trans (ih chef)

theorem learn_score (s : Chef) (name : GoString) (r : RecipeId) (added : List Conn) (spare : Nat) :
    (s.learn name r added spare).2.score = s.score := by
  have inserted (s : Chef) : (added.foldl (fun s conn => s.insert r conn) s).score = s.score := by
    induction added generalizing s with
    | nil => rfl
    | cons c added ih => exact ih (s.insert r c)
  exact (inserted _).trans (s.forget_dropped name).score

/-- A recipe that gives no connection: it is at its limit or cannot be dialed. -/
def Unable (s : Chef) (attempt : RecipeId → Attempt) (r : RecipeId) : Prop :=
  (s.recipes r).Full ∨ attempt r ≠ .ready

variable {attempt : RecipeId → Attempt}

private theorem Aside.unable (h : s.Aside s') :
    s'.Unable attempt r ↔ s.Unable attempt r := by rw [Unable,Unable,h.recipes]

/-- What the loop of `Cook` over a list may come to: the first recipe that can gives a connection, or there is none. -/
def Serves (s : Chef) (attempt : RecipeId → Attempt) (l : List RecipeId) (result : Result) (s' : Chef) : Prop :=
  (∃ before r after conn, l = before ++ r :: after ∧ (∀ r' ∈ before, s.Unable attempt r') ∧ ¬ s.Unable attempt r ∧
    result = .cooked conn ∧ s.Cooked s' r conn) ∨
  ((∀ r ∈ l, s.Unable attempt r) ∧ (∀ conn, result ≠ .cooked conn) ∧ s.Aside s')

private theorem Serves.cons {l : List RecipeId}
    {result : Result} (aside : s.Aside s') (unable : s.Unable attempt r) (h : s'.Serves attempt l result s'') :
    s.Serves attempt (r :: l) result s'' := by
  rcases h with ⟨before,r',after,conn,rfl,none,able,res,cooked⟩ | ⟨none,res,last⟩
  · refine .inl ⟨r :: before,r',after,conn,rfl,?_,fun h => able (aside.unable.mpr h),res,aside.cooked cooked⟩
    exact List.forall_mem_cons.mpr ⟨unable,fun r hr => aside.unable.mp (none r hr)⟩
  · refine .inr ⟨?_,res,aside.trans last⟩
    exact List.forall_mem_cons.mpr ⟨unable,fun r hr => aside.unable.mp (none r hr)⟩

private theorem dial_none {a : Attempt} : (s.dial r a).1 = none ↔ a ≠ .ready := by
  cases a <;> simp [dial]

theorem serve_serves (attempt : RecipeId → Attempt) (l : List RecipeId) (s : Chef) :
    s.Serves attempt l (serve attempt l s).1 (serve attempt l s).2 := by
  induction l generalizing s with
  | nil => exact .inr ⟨nofun,nofun,.refl s⟩
  | cons r rest ih =>
    rw [serve]
    cases slot : (s.recipes r).allocate with
    | none => exact (ih s).cons (.refl s) (.inl (Recipe.allocate_eq_none.mp slot))
    | some recipe =>
      have room : ¬ (s.recipes r).Full := fun full => by
        rw [Recipe.allocate_eq_none.mpr full] at slot
        cases slot
      by_cases ready : attempt r = .ready
      · refine .inl ⟨[],r,rest,s.dialed,rfl,nofun,fun h => h.elim room (absurd ready),?_⟩
        rw [ready]
        exact ⟨rfl,cooked_ready slot⟩
      · have aside := failed_aside slot (attempt r)
        have failed : ((s.setRecipe r recipe).dial r (attempt r)).1 = none := dial_none.mpr ready
        dsimp only
        generalize (s.setRecipe r recipe).dial r (attempt r) = dialed at failed aside
        obtain ⟨_,chef⟩ := dialed
        subst failed
        dsimp only
        split
        · rename_i last
          exact .cons aside (.inr ready) (last ▸ .inr ⟨nofun,nofun,.refl _⟩)
        · exact (ih _).cons aside (.inr ready)

end Chef
end Pggat.Kitchen
