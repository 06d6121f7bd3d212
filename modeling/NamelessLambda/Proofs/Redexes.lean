import Mathlib.Data.List.Nodup
import NamelessLambda.Proofs.Leaves

/-!
Contract: the redexes of a term, by their positions.

A position is the way from the root to a subterm, so one redex lies inside
another if its position goes on from the other one. A redex is affine if its
contraction copies nothing that is larger than a variable. The affine redexes
that lie in no other affine redex do not touch one another, and so they can be
replaced all at once.

Owns:
- `Position`, `Term.subtermAt?` and the list of all redexes;
- `Redex.Affine` and `Redex.Encloses`;
- the visited redexes and those of them that are affine;
- `Term.replaceSubterms`, which replaces subterms at several positions.

Does not own:
- which of these redexes a pass contracts.
-/

namespace NamelessLambda

/-- Part of a term that is a term itself. -/
inductive Part where
  | body
  | function
  | argument
deriving DecidableEq, Repr

/-- Way from the root of a term to one of its subterms. -/
abbrev Position := List Part

/-- Application of a binder, with its position in a term. -/
structure Redex where
  position : Position
  body : Term
  argument : Term
deriving DecidableEq, Repr

namespace Redex

/-- The same redex in a term of which its own term is the given part. -/
def below (part : Part) (redex : Redex) : Redex :=
  ⟨part :: redex.position, redex.body, redex.argument⟩

/-- Contracting the redex makes at most one copy of its argument, or copies a mere variable. -/
def Affine (redex : Redex) : Prop :=
  redex.argument.isVar = true ∨ redex.body.occurrences 0 ≤ 1

instance instDecidableAffine (redex : Redex) : Decidable redex.Affine :=
  inferInstanceAs (Decidable (_ ∨ _))

theorem not_affine_iff {redex : Redex} :
    ¬ redex.Affine ↔ redex.argument.isVar = false ∧ 2 ≤ redex.body.occurrences 0 := by
  rw [Affine, not_or, Bool.not_eq_true, Nat.not_le, Nat.lt_iff_add_one_le]

/-- The second redex lies inside the first one, and is not the same. -/
def Encloses (outer inner : Redex) : Prop :=
  outer.position <+: inner.position ∧ outer.position ≠ inner.position

instance instDecidableEncloses (outer inner : Redex) : Decidable (outer.Encloses inner) :=
  inferInstanceAs (Decidable (_ ∧ _))

/-- None of the affine redexes among `redexes` encloses the redex. -/
def Exposed (redexes : List Redex) (redex : Redex) : Prop :=
  ∀ outer ∈ redexes, outer.Affine → ¬ outer.Encloses redex

instance instDecidableExposed (redexes : List Redex) (redex : Redex) :
    Decidable (Exposed redexes redex) :=
  inferInstanceAs (Decidable (∀ outer ∈ redexes, _))

/-- Substitution that contracts the redex. -/
def contract (redex : Redex) : Except Failure Substitution :=
  redex.body.substitute redex.argument 0

/-- What the redexes put at a position: the contractum of the one that stands there. -/
def contractumAt? (redexes : List Redex) (position : Position) : Option Term :=
  (redexes.find? fun redex => redex.position = position).bind fun redex =>
    redex.contract.toOption.map Substitution.term

end Redex

open Redex

namespace Term

/-- Subterm at a position, if the term reaches that far. -/
def subtermAt? : Term → Position → Option Term
  | term, [] => some term
  | .lam body, .body :: rest => body.subtermAt? rest
  | .app function _, .function :: rest => function.subtermAt? rest
  | .app _ argument, .argument :: rest => argument.subtermAt? rest
  | _, _ => none

/-- The redex that an application itself is, if its function is a binder. -/
def redexAtRoot : (function argument : Term) → List Redex
  | .lam body, argument => [⟨[], body, argument⟩]
  | _, _ => []

/-- All redexes from the root down. -/
def redexes : Term → List Redex
  | .var _ => []
  | .lam body => body.redexes.map (below .body)
  | .app function argument =>
      redexAtRoot function argument ++
        (function.redexes.map (below .function) ++ argument.redexes.map (below .argument))

/-- The redexes that are reached from the root without going into an affine one. -/
def visited (term : Term) : List Redex :=
  term.redexes.filter fun redex => Exposed term.redexes redex

/-- The visited redexes that are affine. -/
def contracted (term : Term) : List Redex := term.visited.filter fun redex => redex.Affine

/-- The term with new subterms at the positions for which there are any, and otherwise unchanged. -/
def replaceSubterms (new : Position → Option Term) : Term → Term
  | .var level => (new []).getD (.var level)
  | .lam body => (new []).getD (.lam (body.replaceSubterms fun rest => new (.body :: rest)))
  | .app function argument =>
      (new []).getD (.app (function.replaceSubterms fun rest => new (.function :: rest))
        (argument.replaceSubterms fun rest => new (.argument :: rest)))

/-- The term with all visited affine redexes replaced by their contracta at once. -/
def contractVisited (term : Term) : Term :=
  term.replaceSubterms (contractumAt? term.contracted)

end Term

/-! ## Redexes of a part -/

namespace Redex

variable {part other : Part} {outer inner redex : Redex} {redexes more : List Redex}

@[simp] theorem affine_below : (redex.below part).Affine ↔ redex.Affine := Iff.rfl

private theorem below_injective : Function.Injective (below part) := by
  intro redex other same
  cases redex
  cases other
  simpa [below] using same

private theorem mem_map_below_iff {position : Position} {body argument : Term} :
    (⟨other :: position, body, argument⟩ : Redex) ∈ redexes.map (below part) ↔
      other = part ∧ ⟨position, body, argument⟩ ∈ redexes := by
  constructor
  · intro member
    obtain ⟨inner, within, same⟩ := List.mem_map.mp member
    have positions := List.cons.inj (congrArg Redex.position same)
    cases same
    exact ⟨positions.1.symm, within⟩
  · intro both
    rw [both.1]
    exact List.mem_map.mpr ⟨_, both.2, rfl⟩

private theorem not_mem_map_below_root {body argument : Term} :
    (⟨[], body, argument⟩ : Redex) ∉ redexes.map (below part) := by
  intro member
  obtain ⟨inner, _, same⟩ := List.mem_map.mp member
  cases congrArg Redex.position same

private theorem encloses_below_iff :
    (outer.below part).Encloses (inner.below part) ↔ outer.Encloses inner := by
  simp [Encloses, below, List.cons_prefix_cons]

private theorem not_encloses_below_of_ne (different : part ≠ other) :
    ¬ (outer.below part).Encloses (inner.below other) := by
  simp [Encloses, below, List.cons_prefix_cons, different]

private theorem Encloses.length_lt (encloses : outer.Encloses inner) :
    outer.position.length < inner.position.length := by
  have le := encloses.1.length_le
  have different : outer.position.length ≠ inner.position.length := fun same =>
    encloses.2 (encloses.1.eq_of_length same)
  omega

theorem not_encloses_of_root (atRoot : inner.position = []) : ¬ outer.Encloses inner := by
  simp [Encloses, atRoot]

private theorem encloses_below_of_root (atRoot : outer.position = []) :
    outer.Encloses (inner.below part) := by
  simp [Encloses, below, atRoot]

private theorem exposed_append_iff :
    Exposed (redexes ++ more) redex ↔ Exposed redexes redex ∧ Exposed more redex :=
  List.forall_mem_append

private theorem exposed_map_below_iff :
    Exposed (redexes.map (below part)) (redex.below part) ↔ Exposed redexes redex := by
  simp only [Exposed, List.forall_mem_map, affine_below, encloses_below_iff]

private theorem exposed_map_below_of_ne (different : part ≠ other) :
    Exposed (redexes.map (below part)) (redex.below other) := by
  simp only [Exposed, List.forall_mem_map]
  intro outer _ _
  exact not_encloses_below_of_ne different

/-! ## What is put at a position -/

private theorem find?_map_below (redexes : List Redex) (rest : Position) :
    (redexes.map (below part)).find? (fun redex => redex.position = part :: rest) =
      (redexes.find? fun redex => redex.position = rest).map (below part) := by
  rw [List.find?_map]
  congr 2
  funext redex
  simp [below]

private theorem find?_map_below_of_ne (different : part ≠ other) (redexes : List Redex)
    (rest : Position) :
    (redexes.map (below part)).find? (fun redex => redex.position = other :: rest) = none := by
  simp [List.find?_eq_none, below, different]

private theorem find?_map_below_root (part : Part) (redexes : List Redex) :
    (redexes.map (below part)).find? (fun redex => redex.position = []) = none := by
  simp [List.find?_eq_none, below]

private theorem contractumAt?_map_below (redexes : List Redex) (rest : Position) :
    contractumAt? (redexes.map (below part)) (part :: rest) = contractumAt? redexes rest := by
  rw [contractumAt?, find?_map_below, contractumAt?, Option.bind_map]
  rfl

private theorem contractumAt?_append_left {position : Position}
    (absent : more.find? (fun redex => redex.position = position) = none) :
    contractumAt? (redexes ++ more) position = contractumAt? redexes position := by
  rw [contractumAt?, List.find?_append, absent, Option.or_none, contractumAt?]

private theorem contractumAt?_append_right {position : Position}
    (absent : redexes.find? (fun redex => redex.position = position) = none) :
    contractumAt? (redexes ++ more) position = contractumAt? more position := by
  rw [contractumAt?, List.find?_append, absent, Option.none_or, contractumAt?]

private theorem contractumAt?_of_find?_eq_none {position : Position}
    (absent : redexes.find? (fun redex => redex.position = position) = none) :
    contractumAt? redexes position = none := by
  rw [contractumAt?, absent]
  rfl

end Redex

open Redex

namespace Term

variable {body function argument term : Term} {redex : Redex}

/-! ## All redexes -/

theorem subtermAt?_nil (term : Term) : term.subtermAt? [] = some term := by
  cases term <;> rfl

theorem position_of_mem_redexAtRoot (member : redex ∈ redexAtRoot function argument) :
    redex.position = [] := by
  cases function with
  | lam body => rw [List.mem_singleton.mp member]
  | var level => cases member
  | app first last => cases member

theorem mem_redexAtRoot_iff {inner last : Term} :
    (⟨[], inner, last⟩ : Redex) ∈ redexAtRoot function argument ↔
      function = .lam inner ∧ argument = last := by
  cases function with
  | lam body => simp [redexAtRoot, eq_comm]
  | var level => simp [redexAtRoot]
  | app first second => simp [redexAtRoot]

/-- A redex is listed exactly if it stands at its position in the term. -/
theorem mem_redexes_iff :
    redex ∈ term.redexes ↔
      term.subtermAt? redex.position = some (.app (.lam redex.body) redex.argument) := by
  obtain ⟨position, inner, last⟩ := redex
  induction term generalizing position with
  | var level => cases position <;> simp [redexes, subtermAt?]
  | lam body inductionHypothesis =>
      rw [redexes]
      cases position with
      | nil => exact iff_of_false not_mem_map_below_root (by simp [subtermAt?])
      | cons part rest =>
          rw [mem_map_below_iff, inductionHypothesis]
          cases part <;> simp [subtermAt?]
  | app function argument functionHypothesis argumentHypothesis =>
      rw [redexes, List.mem_append, List.mem_append]
      cases position with
      | nil =>
          rw [mem_redexAtRoot_iff]
          simp only [not_mem_map_below_root, or_false]
          simp [subtermAt?]
      | cons part rest =>
          have notAtRoot : ⟨part :: rest, inner, last⟩ ∉ redexAtRoot function argument :=
            fun member => List.cons_ne_nil _ _ (position_of_mem_redexAtRoot member)
          rw [mem_map_below_iff, mem_map_below_iff, functionHypothesis, argumentHypothesis]
          cases part <;> simp [notAtRoot, subtermAt?]

private theorem nodup_redexAtRoot (function argument : Term) :
    (redexAtRoot function argument).Nodup := by
  cases function with
  | lam body => exact List.nodup_singleton _
  | var level => exact List.nodup_nil
  | app first last => exact List.nodup_nil

theorem nodup_redexes (term : Term) : term.redexes.Nodup := by
  induction term with
  | var level => exact List.nodup_nil
  | lam body inductionHypothesis => exact inductionHypothesis.map below_injective
  | app function argument functionHypothesis argumentHypothesis =>
      have parts : (function.redexes.map (below .function) ++
          argument.redexes.map (below .argument)).Nodup := by
        apply (functionHypothesis.map below_injective).append
          (argumentHypothesis.map below_injective)
        rintro ⟨position, inner, last⟩ inFunction inArgument
        cases position with
        | nil => exact not_mem_map_below_root inFunction
        | cons part rest =>
            rw [mem_map_below_iff] at inFunction inArgument
            cases inFunction.1.symm.trans inArgument.1
      apply (nodup_redexAtRoot function argument).append parts
      rintro ⟨position, inner, last⟩ atRoot inside
      cases position_of_mem_redexAtRoot atRoot
      rcases List.mem_append.mp inside with inFunction | inArgument
      · exact not_mem_map_below_root inFunction
      · exact not_mem_map_below_root inArgument

/-! ## Visited redexes -/

private theorem visited_subset {redex : Redex} (member : redex ∈ term.visited) :
    redex ∈ term.redexes :=
  (List.mem_filter.mp member).1

private theorem exposed_of_mem_visited (member : redex ∈ term.visited) :
    Exposed term.redexes redex :=
  of_decide_eq_true (List.mem_filter.mp member).2

theorem mem_visited (member : redex ∈ term.redexes) (exposed : Exposed term.redexes redex) :
    redex ∈ term.visited :=
  List.mem_filter.mpr ⟨member, decide_eq_true exposed⟩

/-- Going outward from an affine redex one comes to one that is visited. -/
private theorem exists_visited_of_affine (member : redex ∈ term.redexes) (affine : redex.Affine) :
    ∃ outer ∈ term.visited, outer.Affine ∧ outer.position <+: redex.position := by
  induction depth : redex.position.length using Nat.strongRecOn generalizing redex with
  | ind depth inductionHypothesis =>
      by_cases exposed : Exposed term.redexes redex
      · exact ⟨redex, mem_visited member exposed, affine, List.prefix_rfl⟩
      · simp only [Exposed, not_forall, not_not] at exposed
        obtain ⟨middle, within, affineMiddle, encloses⟩ := exposed
        have nearer := encloses.length_lt
        obtain ⟨outer, visits, affineOuter, around⟩ :=
          inductionHypothesis _ (depth ▸ nearer) within affineMiddle rfl
        exact ⟨outer, visits, affineOuter, around.trans encloses.1⟩

/-- What is visited is what lies inside no other visited affine redex. -/
theorem mem_visited_iff :
    redex ∈ term.visited ↔
      redex ∈ term.redexes ∧ ∀ outer ∈ term.visited, outer.Affine → ¬ outer.Encloses redex := by
  constructor
  · intro visits
    exact ⟨visited_subset visits, fun outer visitsOuter =>
      exposed_of_mem_visited visits outer (visited_subset visitsOuter)⟩
  · rintro ⟨member, free⟩
    apply mem_visited member
    intro middle within affine encloses
    obtain ⟨outer, visits, affineOuter, around⟩ := exists_visited_of_affine within affine
    apply free outer visits affineOuter
    refine ⟨around.trans encloses.1, fun same => ?_⟩
    have shorter := around.length_le
    have nearer := encloses.length_lt
    rw [same] at shorter
    omega

theorem contracted_eq_nil_iff : term.contracted = [] ↔ ∀ redex ∈ term.redexes, ¬ redex.Affine := by
  rw [contracted, List.filter_eq_nil_iff]
  simp only [decide_eq_true_eq]
  constructor
  · intro none redex member affine
    obtain ⟨outer, visits, affineOuter, _⟩ := exists_visited_of_affine member affine
    exact none outer visits affineOuter
  · intro none redex visits
    exact none redex (visited_subset visits)

/-! ## Visited redexes of a part -/

theorem visited_lam : (Term.lam body).visited = body.visited.map (below .body) := by
  rw [visited, redexes, List.filter_map]
  congr 1
  apply List.filter_congr
  intro redex _
  simp only [Function.comp, exposed_map_below_iff]

private theorem exposed_redexAtRoot (kept : ∀ redex ∈ redexAtRoot function argument, ¬ redex.Affine)
    (redex : Redex) : Exposed (redexAtRoot function argument) redex :=
  fun outer atRoot affine => absurd affine (kept outer atRoot)

/-- A redex at the root is visited; if it is not affine, then whatever is visited in the parts of
the application is visited in the whole. -/
theorem visited_app_of_kept (kept : ∀ redex ∈ redexAtRoot function argument, ¬ redex.Affine) :
    (Term.app function argument).visited = redexAtRoot function argument ++
      (function.visited.map (below .function) ++ argument.visited.map (below .argument)) := by
  have atRoot := exposed_redexAtRoot kept
  rw [visited, redexes, List.filter_append, List.filter_append, List.filter_map, List.filter_map]
  congr 1
  · apply List.filter_eq_self.mpr
    intro redex member
    apply decide_eq_true
    intro outer _ _
    exact not_encloses_of_root (position_of_mem_redexAtRoot member)
  · congr 2
    · apply List.filter_congr
      intro redex _
      simp only [Function.comp, exposed_append_iff, atRoot, exposed_map_below_iff,
        exposed_map_below_of_ne (nofun : Part.argument ≠ .function), true_and, and_true]
    · apply List.filter_congr
      intro redex _
      simp only [Function.comp, exposed_append_iff, atRoot, exposed_map_below_iff,
        exposed_map_below_of_ne (nofun : Part.function ≠ .argument), true_and]

/-- Nothing inside an affine redex at the root is visited. -/
theorem visited_app_of_affine (affine : (⟨[], body, argument⟩ : Redex).Affine) :
    (Term.app (.lam body) argument).visited = [⟨[], body, argument⟩] := by
  have atRoot : ⟨[], body, argument⟩ ∈ (Term.app (.lam body) argument).redexes :=
    mem_redexes_iff.mpr rfl
  have enclosed : ∀ (part : Part) (inner : Redex),
      ¬ Exposed (Term.app (.lam body) argument).redexes (inner.below part) :=
    fun part inner exposed => exposed _ atRoot affine (encloses_below_of_root rfl)
  have noneInside : ∀ (part : Part) (redexes : List Redex),
      (redexes.map (below part)).filter
        (fun redex => Exposed (Term.app (.lam body) argument).redexes redex) = [] := by
    intro part redexes
    rw [List.filter_eq_nil_iff]
    intro redex member
    obtain ⟨inner, _, rfl⟩ := List.mem_map.mp member
    simp [enclosed]
  have exposed : Exposed (Term.app (.lam body) argument).redexes ⟨[], body, argument⟩ :=
    fun _ _ _ => not_encloses_of_root rfl
  show (⟨[], body, argument⟩ :: ((Term.lam body).redexes.map (below .function) ++
      argument.redexes.map (below .argument))).filter
        (fun redex => Exposed (Term.app (.lam body) argument).redexes redex) = _
  rw [List.filter_cons, decide_eq_true exposed, if_pos rfl, List.filter_append, noneInside,
    noneInside, List.append_nil]

/-! ## Contracted redexes of a part -/

theorem contracted_lam : (Term.lam body).contracted = body.contracted.map (below .body) := by
  rw [contracted, visited_lam, List.filter_map]
  rfl

theorem contracted_app_of_kept (kept : ∀ redex ∈ redexAtRoot function argument, ¬ redex.Affine) :
    (Term.app function argument).contracted =
      function.contracted.map (below .function) ++ argument.contracted.map (below .argument) := by
  have noneAtRoot : (redexAtRoot function argument).filter (fun redex => redex.Affine) = [] := by
    rw [List.filter_eq_nil_iff]
    intro redex member
    simp [kept redex member]
  rw [contracted, visited_app_of_kept kept, List.filter_append, List.filter_append, noneAtRoot,
    List.nil_append, List.filter_map, List.filter_map]
  rfl

theorem contracted_app_of_affine (affine : (⟨[], body, argument⟩ : Redex).Affine) :
    (Term.app (.lam body) argument).contracted = [⟨[], body, argument⟩] := by
  rw [contracted, visited_app_of_affine affine, List.filter_singleton, decide_eq_true affine]
  rfl

/-! ## Replacing in the parts -/

private theorem replaceSubterms_none (term : Term) :
    term.replaceSubterms (fun _ => none) = term := by
  induction term with
  | var level => rfl
  | lam body inductionHypothesis => rw [replaceSubterms, inductionHypothesis]; rfl
  | app function argument functionHypothesis argumentHypothesis =>
      rw [replaceSubterms, functionHypothesis, argumentHypothesis]
      rfl

theorem contractVisited_of_nil (nothing : term.contracted = []) : term.contractVisited = term := by
  rw [contractVisited, nothing]
  exact replaceSubterms_none term

theorem contractVisited_lam : (Term.lam body).contractVisited = .lam body.contractVisited := by
  have atRoot := contractumAt?_of_find?_eq_none (find?_map_below_root .body body.contracted)
  rw [contractVisited, contracted_lam, replaceSubterms, atRoot,
    funext (contractumAt?_map_below body.contracted)]
  rfl

theorem contractVisited_app_of_kept
    (kept : ∀ redex ∈ redexAtRoot function argument, ¬ redex.Affine) :
    (Term.app function argument).contractVisited =
      .app function.contractVisited argument.contractVisited := by
  have atRoot : contractumAt? (function.contracted.map (below .function) ++
      argument.contracted.map (below .argument)) [] = none := by
    rw [contractumAt?_append_left (find?_map_below_root .argument _),
      contractumAt?_of_find?_eq_none (find?_map_below_root .function _)]
  have inFunction : ∀ rest, contractumAt? (function.contracted.map (below .function) ++
      argument.contracted.map (below .argument)) (.function :: rest) =
        contractumAt? function.contracted rest := by
    intro rest
    have absent :=
      find?_map_below_of_ne (nofun : Part.argument ≠ .function) argument.contracted rest
    rw [contractumAt?_append_left absent, contractumAt?_map_below]
  have inArgument : ∀ rest, contractumAt? (function.contracted.map (below .function) ++
      argument.contracted.map (below .argument)) (.argument :: rest) =
        contractumAt? argument.contracted rest := by
    intro rest
    have absent :=
      find?_map_below_of_ne (nofun : Part.function ≠ .argument) function.contracted rest
    rw [contractumAt?_append_right absent, contractumAt?_map_below]
  rw [contractVisited, contracted_app_of_kept kept, replaceSubterms, atRoot, funext inFunction,
    funext inArgument]
  rfl

theorem contractVisited_app_of_affine (affine : (⟨[], body, argument⟩ : Redex).Affine)
    {result : Substitution} (ran : body.substitute argument 0 = .ok result) :
    (Term.app (.lam body) argument).contractVisited = result.term := by
  have atRoot : contractumAt? [⟨[], body, argument⟩] [] = some result.term := by
    show Option.map Substitution.term (body.substitute argument 0).toOption = some result.term
    rw [ran]
    rfl
  rw [contractVisited, contracted_app_of_affine affine, replaceSubterms, atRoot, Option.getD_some]

end Term

end NamelessLambda
