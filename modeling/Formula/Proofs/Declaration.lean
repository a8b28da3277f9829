import Formula.Builtin.Declaration
import Formula.Proofs.Draft
import Mathlib.Data.List.Forall2
/-!
# What a declared builtin does with its arguments

Code is generated from the declarations that need some numbers and then take some more, and from no others
(`expand_eq_ok_iff`). A parameter is bound to the argument at its place among all of them: the place is counted for
both kinds together, while the two numbers of parameters, which bound the number of arguments, are counted apart. The
needed arguments are read without a test of their own, and the bounds make sure that they are there. So the code never
fails but for the number of arguments, and calls the builtin that is declared (`declared`): `run_of_expects`.
-/

namespace Formula

/-- The parameters expect numbers under the first names, which have to be given, and under the others, which do not. -/
inductive Expects : List Parameter → List String → List String → Prop
  | nil : Expects [] [] []
  | optional {name type ps os} (htype : type.isOptionalFloat) (h : Expects ps [] os) :
    Expects (.plain name type :: ps) [] (name :: os)
  | required {name type ps rs os} (htype : type.isFloat) (h : Expects ps rs os) :
    Expects (.plain name type :: ps) (name :: rs) os

/-- The lines for parameters that start at place `k`. -/
def extractions (k : Nat) (rs os : List String) : List Extraction :=
  (rs.zipIdx k).map (fun (name, i) => .index name i) ++ (os.zipIdx (k + rs.length)).map fun (name, i) => .get name i

/-- The builtin that is declared. -/
def declared (name : String) (rs os : List String) (body : List (String × Binding) → Float) : Builtin where
  name
  required := rs.length
  optional := os.length
  body x y := body (.ofFn (fun i => (rs[i], .required (x i))) ++ .ofFn fun i => (os[i], .optional (y i)))

/-! ## What is generated -/

namespace Expansion

/-- With these parameters added. -/
def addAll (x : Expansion) (rs os : List String) : Expansion where
  index := x.index + rs.length + os.length
  required := x.required + rs.length
  optional := x.optional + os.length
  extractions := x.extractions ++ Formula.extractions x.index rs os

theorem isFloat_of_isOptionalFloat {t : TypeExpr} (h : t.isOptionalFloat) : t.isFloat = false := by
  unfold TypeExpr.isFloat
  split
  · cases h
  · rfl

theorem addAll_nil (x : Expansion) : x.addAll [] [] = x := by
  simp [addAll, Formula.extractions]

/-- A parameter goes behind those of its kind. -/
theorem addAll_required (x : Expansion) (name : String) (rs os : List String) :
    (x.addAll [name] []).addAll rs os = x.addAll (name :: rs) os := by
  simp [addAll, Formula.extractions, Nat.add_assoc, Nat.add_comm 1]

theorem addAll_optional (x : Expansion) (name : String) (os : List String) :
    (x.addAll [] [name]).addAll [] os = x.addAll [] (name :: os) := by
  simp [addAll, Formula.extractions, Nat.add_assoc, Nat.add_comm 1]

theorem add_eq_ok_iff {x y : Expansion} {p : Parameter} :
    x.add p = .ok y ↔ ∃ name type, p = .plain name type ∧
      (type.isFloat ∧ x.optional = 0 ∧ y = x.addAll [name] [] ∨ type.isOptionalFloat ∧ y = x.addAll [] [name]) := by
  constructor
  · intro h
    unfold add at h
    split at h
    · cases h
    · cases h
    · next name type =>
      split at h
      · next htype =>
        split at h
        · cases h
        · next hopt => exact ⟨name, type, rfl, .inl ⟨htype, Nat.eq_zero_of_not_pos hopt, (Except.ok.inj h).symm⟩⟩
      · split at h
        · next htype => exact ⟨name, type, rfl, .inr ⟨htype, (Except.ok.inj h).symm⟩⟩
        · cases h
  · rintro ⟨name, type, rfl, ⟨htype, hopt, rfl⟩ | ⟨htype, rfl⟩⟩
    · rw [add, if_pos htype, if_neg (by omega)]
      rfl
    · rw [add, if_neg (by simp [isFloat_of_isOptionalFloat htype]), if_pos htype]
      rfl

theorem foldlM_add_eq_ok_iff {x y : Expansion} {ps : List Parameter} :
    ps.foldlM add x = .ok y ↔ ∃ rs os, Expects ps rs os ∧ (rs ≠ [] → x.optional = 0) ∧ y = x.addAll rs os := by
  induction ps generalizing x with
  | nil =>
    constructor
    · intro h
      obtain rfl := Except.ok.inj h
      exact ⟨[], [], .nil, nofun, (addAll_nil x).symm⟩
    · rintro ⟨_, _, ⟨⟩, -, rfl⟩
      rw [addAll_nil]
      rfl
  | cons p ps ih =>
    rw [List.foldlM_cons, bind_eq_ok]
    constructor
    · rintro ⟨z, hz, hy⟩
      obtain ⟨rs, os, hps, hopt, rfl⟩ := ih.1 hy
      rcases add_eq_ok_iff.1 hz with ⟨name, type, rfl, ⟨htype, hx, rfl⟩ | ⟨htype, rfl⟩⟩
      · exact ⟨name :: rs, os, .required htype hps, fun _ => hx, addAll_required x name rs os⟩
      · -- Nothing is needed any more behind a number that may be left out.
        obtain rfl : rs = [] := by
          by_contra hne
          exact absurd (hopt hne) (by simp [addAll])
        exact ⟨[], name :: os, .optional htype hps, nofun, addAll_optional x name os⟩
    · rintro ⟨rs, os, h, hopt, rfl⟩
      cases h with
      | @optional name type _ os htype hps =>
        refine ⟨x.addAll [] [name], add_eq_ok_iff.2 ⟨name, type, rfl, .inr ⟨htype, rfl⟩⟩, ih.2 ⟨[], os, hps, nofun, ?_⟩⟩
        rw [addAll_optional]
      | @required name type _ rs _ htype hps =>
        have hx : x.optional = 0 := hopt (List.cons_ne_nil _ _)
        refine ⟨x.addAll [name] [], add_eq_ok_iff.2 ⟨name, type, rfl, .inl ⟨htype, hx, rfl⟩⟩, ih.2 ⟨rs, os, hps, ?_⟩⟩
        exact ⟨fun _ => hx, by rw [addAll_required]⟩

end Expansion

/-- Code is generated from needed numbers and others behind them, and from nothing else. -/
theorem expand_eq_ok_iff {d : Declaration} {g : Generated} :
    d.expand = .ok g ↔ d.result.any TypeExpr.isFloat ∧ ∃ rs os, Expects d.parameters rs os ∧
      g = ⟨d.name, rs.length, rs.length + os.length, extractions 0 rs os, d.body⟩ := by
  rw [Declaration.expand]
  by_cases hresult : d.result.any TypeExpr.isFloat
  · rw [if_pos hresult, bind_eq_ok]
    constructor
    · rintro ⟨x, hx, h⟩
      obtain ⟨rs, os, hps, -, rfl⟩ := Expansion.foldlM_add_eq_ok_iff.1 hx
      refine ⟨hresult, rs, os, hps, (Except.ok.inj h).symm.trans ?_⟩
      simp [Expansion.addAll]
    · rintro ⟨-, rs, os, hps, rfl⟩
      refine ⟨_, Expansion.foldlM_add_eq_ok_iff.2 ⟨rs, os, hps, fun _ => rfl, rfl⟩, ?_⟩
      simp [Expansion.addAll, pure, Except.pure]
  · rw [if_neg hresult]
    exact ⟨nofun, fun h => absurd h.1 hresult⟩

/-! ## What the code does -/

theorem mapM_eq_some_of_forall₂ {α β : Type} {f : α → Option β} {l : List α} {l' : List β}
    (h : List.Forall₂ (fun a b => f a = some b) l l') : l.mapM f = some l' := by
  induction h with
  | nil => rfl
  | cons h _ ih =>
    rw [List.mapM_cons, h, ih]
    rfl

/-- With arguments enough for the needed ones, each line binds its parameter. -/
theorem mapM_extractions {rs os : List String} {args : List Float} (h : rs.length ≤ args.length) :
    (extractions 0 rs os).mapM (Extraction.eval args) =
      some (.ofFn (fun i : Fin rs.length => (rs[i], .required args[i])) ++
        .ofFn fun i : Fin os.length => (os[i], .optional args[rs.length + i]?)) := by
  refine mapM_eq_some_of_forall₂ (List.rel_append (List.forall₂_iff_get.2 ⟨by simp, fun i hi hi' => ?_⟩)
    (List.forall₂_iff_get.2 ⟨by simp, fun i hi hi' => ?_⟩))
  · rw [List.length_ofFn] at hi'
    simp [Extraction.eval, List.getElem?_eq_getElem (Nat.lt_of_lt_of_le hi' h)]
  · simp [Extraction.eval]

theorem call_eq_arity_iff (b : Builtin) {args : List Float} :
    b.call args = .error (.arity b.name b.required (b.required + b.optional) args.length) ↔
      args.length < b.required ∨ b.required + b.optional < args.length := by
  rw [Builtin.call]
  split
  · exact ⟨nofun, by omega⟩
  · exact ⟨fun _ => by omega, fun _ => rfl⟩

section

variable {rs os : List String} {args : List Float} (name : String) (body : List (String × Binding) → Float)

theorem declared_call_of_le (h : rs.length ≤ args.length ∧ args.length ≤ rs.length + os.length) :
    (declared name rs os body).call args =
      .ok (body (.ofFn (fun i : Fin rs.length => (rs[i], .required args[i])) ++
        .ofFn fun i : Fin os.length => (os[i], .optional args[rs.length + i]?))) :=
  dif_pos h

/-- What is generated calls the builtin that is declared. -/
theorem run_eq_call :
    Generated.run ⟨name, rs.length, rs.length + os.length, extractions 0 rs os, body⟩ args =
      some ((declared name rs os body).call args) := by
  rw [Generated.run]
  by_cases h : rs.length ≤ args.length ∧ args.length ≤ rs.length + os.length
  · rw [if_neg (by dsimp only; omega), declared_call_of_le name body h]
    dsimp only
    rw [mapM_extractions h.1]
    rfl
  · have hout : args.length < rs.length ∨ rs.length + os.length < args.length := by omega
    rw [if_pos hout]
    exact congrArg some ((call_eq_arity_iff (declared name rs os body)).2 hout).symm

end

theorem lt_of_mem_extractions {rs os : List String} {name : String} {i : Nat}
    (h : .index name i ∈ extractions 0 rs os) : i < rs.length := by
  simp only [extractions, List.mem_append, List.mem_map, Extraction.index.injEq, reduceCtorEq, and_false, exists_false,
    or_false] at h
  obtain ⟨p, hp, -, rfl⟩ := h
  simpa using (List.mem_zipIdx hp).2.1

/-! ## The standard builtins -/

theorem expects_number {name : String} : Expects [.plain name .number] [name] [] := .required rfl .nil

theorem expects_round : Expects Declaration.round.parameters ["x"] ["precision"] := .required rfl (.optional rfl .nil)

/-- Formulas call what is generated from the declarations. -/
theorem run_eq_callNamed {d : Declaration} (h : d ∈ Declaration.standard) :
    ∃ g, d.expand = .ok g ∧ ∀ args, g.run args = some (Builtin.callNamed d.name args) := by
  simp only [Declaration.standard, List.mem_cons, List.not_mem_nil, or_false] at h
  rcases h with rfl | rfl | rfl
  · exact ⟨_, expand_eq_ok_iff.2 ⟨rfl, ["x"], [], expects_number, rfl⟩, fun args => run_eq_call _ _⟩
  · exact ⟨_, expand_eq_ok_iff.2 ⟨rfl, ["x"], [], expects_number, rfl⟩, fun args => run_eq_call _ _⟩
  · exact ⟨_, expand_eq_ok_iff.2 ⟨rfl, ["x"], ["precision"], expects_round, rfl⟩, fun args => run_eq_call _ _⟩

/-! ## Main theorem -/

/-- A function that is declared with numbers it needs and numbers that may be left out is called with any number of
arguments: too few or too many are refused, under its own name and with its own bounds; else each parameter gets the
argument at its place, or nothing if it may be left out, and no place is out of range. -/
theorem run_of_expects {d : Declaration} {rs os : List String} (hresult : d.result.any TypeExpr.isFloat)
    (h : Expects d.parameters rs os) (args : List Float) :
    ∃ g, d.expand = .ok g ∧ g.run args = some ((declared d.name rs os d.body).call args) ∧
      (g.run args = some (.error (.arity d.name rs.length (rs.length + os.length) args.length)) ↔
        args.length < rs.length ∨ rs.length + os.length < args.length) ∧
      (rs.length ≤ args.length ∧ args.length ≤ rs.length + os.length →
        (∀ name i, .index name i ∈ g.extractions → i < args.length) ∧
        ∃ bs, g.run args = some (.ok (d.body bs)) ∧ bs.length = rs.length + os.length ∧
          (∀ j (hj : j < rs.length), ∃ x, args[j]? = some x ∧ bs[j]? = some (rs[j], .required x)) ∧
          ∀ j (hj : j < os.length), bs[rs.length + j]? = some (os[j], .optional args[rs.length + j]?)) := by
  refine ⟨_, expand_eq_ok_iff.2 ⟨hresult, rs, os, h, rfl⟩, run_eq_call _ _, ?_, fun hargs => ⟨?_, ?_⟩⟩
  · rw [run_eq_call, Option.some.injEq]
    exact call_eq_arity_iff (declared d.name rs os d.body)
  · intro name i hi
    exact Nat.lt_of_lt_of_le (lt_of_mem_extractions hi) hargs.1
  · rw [run_eq_call, declared_call_of_le _ _ hargs]
    refine ⟨_, rfl, by simp, fun j hj => ⟨args[j], by simp, ?_⟩, fun j hj => ?_⟩
    · simp [List.getElem?_append, hj]
    · simp [hj]

/-- Three arguments are too many for `round`, and with one of them its precision is not there. -/
theorem run_of_expects_of_round :
    Declaration.round.result.any TypeExpr.isFloat ∧ Expects Declaration.round.parameters ["x"] ["precision"] ∧
      ∃ g, Declaration.round.expand = .ok g ∧ g.run [1, 2, 3] = some (.error (.arity "round" 1 2 3)) ∧
        ∃ bs, g.run [2.5] = some (.ok (Declaration.round.body bs)) ∧ bs[0]? = some ("x", .required 2.5) ∧
          bs[1]? = some ("precision", .optional none) := by
  obtain ⟨g, hg, -, harity, -⟩ := run_of_expects rfl expects_round [1, 2, 3]
  obtain ⟨g', hg', -, -, hbound⟩ := run_of_expects rfl expects_round [2.5]
  obtain rfl : g = g' := Except.ok.inj (hg.symm.trans hg')
  obtain ⟨-, bs, hrun, -, hrequired, hoptional⟩ := hbound (by decide)
  obtain ⟨x, hx, hbs⟩ := hrequired 0 (by decide)
  cases hx
  exact ⟨rfl, expects_round, g, hg, harity.2 (.inr (by decide)), bs, hrun, hbs, hoptional 0 (by decide)⟩

end Formula
