import Mathlib.Logic.Function.Iterate
import TermIndex.Proofs.BoundVariables
import TermIndex.Proofs.Phrases

/-!
# Scopes

An identifier stands for the closest binder of its name. When binders are put
around a phrase, or between it and those that it sees, its identifiers stand for
the same binders as before, at other indices: one renaming turns what the
identifiers stand for in one scope into what they stand for in the other
(`Moves`), and then it does the same to phrases (`translate_rename`). An
explicit index does not move, so there must be none.

For the binder of an arrow, which has no name, the renaming is raising by one
(`translate_hidden`).
-/

namespace TermIndex.Surface

open Term

/-! ## Identifiers -/

theorem resolve_cons (x : Option String) (scope : Scope) (word : String) :
    Scope.resolve (x :: scope) word
      = if x = some word then .bvar 0
        else (scope.resolve word).rename (· + 1) := by
  unfold Scope.resolve
  rw [List.idxOf?_cons]
  by_cases hx : x = some word
  · simp [hx]
  · cases scope.idxOf? (some word) with
    | _ => simp [hx]

/-- The renaming leads from what identifiers stand for in one scope to what they
stand for in the other. -/
def Moves (ρ : Nat → Nat) (σ τ : Scope) : Prop :=
  ∀ word, (σ.resolve word).rename ρ = τ.resolve word

variable {ρ : Nat → Nat} {σ τ : Scope}

theorem moves_hidden (scope : Scope) : Moves (· + 1) scope (none :: scope) := by
  intro word
  rw [resolve_cons, if_neg nofun]

theorem liftNames_raise (ρ : Nat → Nat) (t : Term) :
    (t.rename (· + 1)).rename (liftNames ρ) = (t.rename ρ).rename (· + 1) := by
  rw [rename_rename, rename_rename]
  rfl

theorem Moves.push (h : Moves ρ σ τ) (x : Option String) :
    Moves (liftNames ρ) (x :: σ) (x :: τ) := by
  intro word
  rw [resolve_cons, resolve_cons]
  split
  · rfl
  · rw [liftNames_raise, h word]

/-! ## Groups -/

theorem Moves.pushAll (names : List String) (h : Moves ρ σ τ) :
    Moves (liftNames^[names.length] ρ) (names.foldl (fun s x => some x :: s) σ)
      (names.foldl (fun s x => some x :: s) τ) := by
  induction names generalizing ρ σ τ with
  | nil => exact h
  | cons x xs ih => exact ih (h.push (some x))

theorem rename_raise (ρ : Nat → Nat) (k : Nat) (t : Term) :
    (t.raise 0 k).rename (liftNames^[k] ρ) = (t.rename ρ).raise 0 k := by
  have hlift : ∀ i, liftNames^[k] ρ (i + k) = ρ i + k := by
    intro i
    induction k with
    | zero => rfl
    | succ k ih =>
        rw [Function.iterate_succ_apply', ← Nat.add_assoc, liftNames, ih]
        rfl
  rw [raise_zero_eq, raise_zero_eq, rename_rename, rename_rename]
  simp only [hlift]

theorem rename_bind (q : Quantifier) (n : Name) (info : BinderInfo)
    (domain body : Term) :
    (q.bind n info domain body).rename ρ
      = q.bind n info (domain.rename ρ) (body.rename (liftNames ρ)) := by
  cases q with
  | _ => rfl

theorem rename_bindGroup (q : Quantifier) (info : BinderInfo) (domain : Term)
    (k : Nat) (names : List String) (body : Term) :
    (q.bindGroup info domain k names body).rename (liftNames^[k] ρ)
      = q.bindGroup info (domain.rename ρ) k names
          (body.rename (liftNames^[k + names.length] ρ)) := by
  induction names generalizing k with
  | nil => rfl
  | cons x xs ih =>
      rw [Quantifier.bindGroup, rename_bind, rename_raise,
        ← Function.iterate_succ_apply' liftNames, ih,
        Nat.succ_add_eq_add_succ]
      rfl

/-! ## Phrases -/

theorem rename_mkApp (f : Term) (as : List Term) :
    (f.mkApp as).rename ρ = (f.rename ρ).mkApp (as.map (rename ρ)) := by
  induction as generalizing f with
  | nil => rfl
  | cons a as ih => exact ih (f.app a)

theorem rename_arrow (left right : Term) :
    (left.arrow right).rename ρ = (left.rename ρ).arrow (right.rename ρ) :=
  congrArg (pi "a" .default (left.rename ρ)) (rename_raise ρ 1 right)

theorem rename_translate_variable (ns : Names) (v : Variable) :
    (ns.translate v).rename ρ = ns.translate v := by
  obtain ⟨_ | _, name⟩ := v
  · rfl
  · rfl

mutual

/-- A phrase in which there is no explicit index moves as its identifiers do. -/
theorem translate_rename (ns : Names) (p : Phrase) (hp : p.IndexFree)
    {ρ : Nat → Nat} {σ τ : Scope} (h : Moves ρ σ τ) :
    (p.translate ns σ).rename ρ = p.translate ns τ := by
  cases p with
  | ident word => exact h word
  | var v => exact rename_translate_variable ns v
  | index i => exact hp.elim
  | nat n => rfl
  | str s => rfl
  | sort w => rfl
  | app fn args =>
      rw [Phrase.translate, rename_mkApp, translate_rename ns fn hp.1 h,
        translateArgs_rename ns args hp.2 h, Phrase.translate]
  | quantified q inside => exact telescope_rename ns q inside hp h
  | arrow left right =>
      rw [Phrase.translate, rename_arrow, translate_rename ns left hp.1 h,
        translate_rename ns right hp.2 h, Phrase.translate]
  | letE name type value body =>
      rw [Phrase.translate, rename, translateType_rename ns type hp.1 h,
        translate_rename ns value hp.2.1 h,
        translate_rename ns body hp.2.2 (h.push (some name)), Phrase.translate]
  | proj struct i value =>
      rw [Phrase.translate, rename, translate_rename ns value hp h,
        Phrase.translate]

theorem translateArgs_rename (ns : Names) (ps : List Phrase)
    (hps : IndexFreeArgs ps) {ρ : Nat → Nat} {σ τ : Scope} (h : Moves ρ σ τ) :
    (translateArgs ns σ ps).map (rename ρ) = translateArgs ns τ ps := by
  cases ps with
  | nil => rfl
  | cons p ps =>
      rw [translateArgs, List.map_cons, translate_rename ns p hps.1 h,
        translateArgs_rename ns ps hps.2 h, translateArgs]

theorem translateType_rename (ns : Names) (type : Option Phrase)
    (htype : IndexFreeType type) {ρ : Nat → Nat} {σ τ : Scope}
    (h : Moves ρ σ τ) :
    (translateType ns σ type).rename ρ = translateType ns τ type := by
  cases type with
  | none => rfl
  | some p => exact translate_rename ns p htype h

theorem telescope_rename (ns : Names) (q : Quantifier) (inside : Telescope)
    (hinside : inside.IndexFree) {ρ : Nat → Nat} {σ τ : Scope}
    (h : Moves ρ σ τ) :
    (inside.translate ns q σ).rename ρ = inside.translate ns q τ := by
  cases inside with
  | body b => exact translate_rename ns b hinside h
  | bare name inner =>
      rw [Telescope.translate, rename_bind,
        telescope_rename ns q inner hinside (h.push (some name)),
        Telescope.translate]
      rfl
  | group info names type inner =>
      have hgroup := rename_bindGroup (ρ := ρ) q info (translateType ns σ type) 0
        names (inner.translate ns q (names.foldl (fun s x => some x :: s) σ))
      rw [Telescope.translate, Telescope.translate,
        ← translateType_rename ns type hinside.1 h,
        ← telescope_rename ns q inner hinside.2 (h.pushAll names)]
      rwa [Nat.zero_add] at hgroup

end

/-- Below a binder that has no name, a phrase stands for the same as above it. -/
theorem translate_hidden (ns : Names) (scope : Scope) {p : Phrase}
    (hp : p.IndexFree) :
    p.translate ns (none :: scope) = (p.translate ns scope).raise 0 1 := by
  rw [raise_zero_eq]
  exact (translate_rename ns p hp (moves_hidden scope)).symm

end TermIndex.Surface
