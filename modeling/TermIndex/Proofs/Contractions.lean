import Mathlib.Data.List.Forall2
import Mathlib.Logic.Relation
import TermIndex.Proofs.PlainEncoding

/-!
# Eta contractions inside a term

`Contracts` relates a term to what it becomes when a single lambda in it is
contracted. The lambda may stand at any place that encoding looks at: not in the
domain of a lambda, not in a `let`, and not at the head of an application.

When terms are encoded as they stand, with all their arguments (`Verbatim`), the
view of a term follows its contractions. A contraction below the root happens in
one of the parts (`Verbatim.view_contracts`), and whatever the parts contract to
are the parts of a term that the whole contracts to (`Verbatim.exists_view`).
-/

namespace TermIndex

open Relation (ReflTransGen ReflGen)

namespace Term

variable {f t t' : Term} {as as' : List Term}

/-! ## Contractions -/

/-- One lambda is replaced by its contracted form: the term itself, or a lambda
inside the body of another one, the domain or body of a function type, the value
of a projection at the head, or an argument. -/
inductive Contracts : Term → Term → Prop
  | here {t t' : Term} (h : t.etaContract? = some t') : Contracts t t'
  | lam {n : Name} {info : BinderInfo} {domain body body' : Term}
      (h : Contracts body body') :
      Contracts (.lam n info domain body) (.lam n info domain body')
  | domain {n : Name} {info : BinderInfo} {domain domain' body : Term}
      (h : Contracts domain domain') :
      Contracts (.pi n info domain body) (.pi n info domain' body)
  | body {n : Name} {info : BinderInfo} {domain body body' : Term}
      (h : Contracts body body') :
      Contracts (.pi n info domain body) (.pi n info domain body')
  | value {s : Name} {i : Nat} {value value' : Term} (as : List Term)
      (h : Contracts value value') :
      Contracts ((Term.proj s i value).mkApp as) ((Term.proj s i value').mkApp as)
  | arg {a a' : Term} (f : Term) (front back : List Term)
      (h : Contracts a a') :
      Contracts (f.mkApp (front ++ a :: back)) (f.mkApp (front ++ a' :: back))

/-- Arguments contract independently of each other. -/
theorem contracts_mkApp (h : List.Forall₂ (ReflTransGen Contracts) as as') :
    ReflTransGen Contracts (f.mkApp as) (f.mkApp as') := by
  induction h generalizing f with
  | nil => exact .refl
  | @cons a a' as as' ha _ ih =>
      have hfirst : ReflTransGen Contracts (f.mkApp (a :: as))
          (f.mkApp (a' :: as)) :=
        ha.lift (fun b => f.mkApp (b :: as)) fun _ _ => .arg f [] as
      exact hfirst.trans (ih (f := .app f a'))

/-- A projected value contracts under its arguments. -/
theorem contracts_value {s : Name} {i : Nat} {value value' : Term}
    (h : ReflTransGen Contracts value value') (as : List Term) :
    ReflTransGen Contracts ((Term.proj s i value).mkApp as)
      ((Term.proj s i value').mkApp as) :=
  h.lift (fun v => (Term.proj s i v).mkApp as) fun _ _ => .value as

/-- A term contracts to its head with contracted arguments. -/
theorem exists_spine (h : List.Forall₂ (ReflTransGen Contracts) t.args as) :
    ∃ t', ReflTransGen Contracts t t' ∧ t'.head = t.head ∧ t'.args = as := by
  have hsteps := contracts_mkApp (f := t.head) h
  rw [mkApp_head_args] at hsteps
  refine ⟨t.head.mkApp as, hsteps, ?_, ?_⟩
  · rw [head_mkApp, head_head]
  · rw [args_mkApp, args_head, List.nil_append]

end Term

open Term

/-! ## Parts -/

/-- Both are left out, or both are terms under the same binders that are
related. -/
inductive PartTo (R : Term → Term → Prop) :
    Option (Term × Nat) → Option (Term × Nat) → Prop
  | wild : PartTo R none none
  | term {t t' : Term} {depth : Nat} (h : R t t') :
      PartTo R (some (t, depth)) (some (t', depth))

variable {R : Term → Term → Prop}

theorem PartTo.refl (hR : ∀ t, R t t) (x : Option (Term × Nat)) :
    PartTo R x x := by
  rcases x with _ | ⟨t, d⟩
  · exact .wild
  · exact .term (hR t)

/-- Related terms in parts are parts of related terms. -/
theorem exists_partTo {as : List Term} {depth : Nat}
    {parts : List (Option (Term × Nat))}
    (h : List.Forall₂ (PartTo R) (as.map fun a => some (a, depth)) parts) :
    ∃ as', List.Forall₂ R as as'
      ∧ parts = as'.map fun a => some (a, depth) := by
  rw [List.forall₂_map_left_iff] at h
  induction h with
  | nil => exact ⟨[], .nil, rfl⟩
  | @cons a x as parts hx _ ih =>
      obtain ⟨as', has, rfl⟩ := ih
      cases hx with
      | @term _ a' _ ha => exact ⟨a' :: as', .cons ha has, rfl⟩

namespace Encoder

variable {enc : Encoder} {t t' : Term} {depth : Nat}

/-- Terms are encoded as they stand, with all their arguments. -/
structure Verbatim (enc : Encoder) : Prop where
  rules : enc.rules = []
  reduce : ∀ t, enc.host.reduce enc.options.policy t = some (.term t)
  relevant : ∀ head i arg, enc.host.irrelevant head i arg = false

theorem headedBy_false (t : Term) : t.headedBy (fun _ => false) = false := by
  unfold headedBy
  cases t.head <;> rfl

theorem Verbatim.plain (h : enc.Verbatim) : enc.Plain fun _ => false := by
  refine ⟨h.rules, fun t => ?_⟩
  rw [h.reduce, headedBy_false]
  rfl

theorem Verbatim.argParts_eq (h : enc.Verbatim) (head : Term)
    (args : List Term) (depth : Nat) :
    enc.argParts head args depth = args.map fun a => some (a, depth) := by
  conv => rhs; rw [← List.zipIdx_map_fst 0 args, List.map_map]
  refine List.map_congr_left fun x _ => ?_
  simp only [h.relevant]
  rfl

theorem view_of_args (ht : t.args ≠ []) :
    enc.view t depth = enc.viewSpine t depth := by
  cases t with
  | app f a => rfl
  | _ => exact absurd rfl ht

/-- The second view builds the same node, over parts that are related to those
of the first one. -/
structure ViewTo (R : Term → Term → Prop) (v v' : View) : Prop where
  build : v'.build = v.build
  parts : List.Forall₂ (PartTo R) v.parts v'.parts

theorem ViewTo.leaf (p : Pattern) : ViewTo R (.leaf p) (.leaf p) :=
  ⟨rfl, .nil⟩

/-- Spines with one head have views that differ in the arguments. -/
theorem Verbatim.viewSpine_to (h : enc.Verbatim) (hR : ∀ t, R t t)
    (hhead : t'.head = t.head) (hargs : List.Forall₂ R t.args t'.args) :
    ViewTo R (enc.viewSpine t depth) (enc.viewSpine t' depth) := by
  have hparts : List.Forall₂ (PartTo R)
      (t.args.map fun a => some (a, depth))
      (t'.args.map fun a => some (a, depth)) := by
    rw [List.forall₂_map_left_iff, List.forall₂_map_right_iff]
    exact hargs.imp fun _ _ => .term
  have hnum : t'.numArgs = t.numArgs := by
    rw [← length_args, ← length_args, hargs.length_eq]
  unfold viewSpine
  simp only [h.argParts_eq, hhead, hnum]
  cases t.head with
  | mvar m => exact .leaf _
  | bvar i =>
      simp only
      split
      · exact .leaf _
      · exact ⟨rfl, hparts⟩
  | proj s i value => exact ⟨rfl, .cons (.term (hR value)) hparts⟩
  | _ => exact ⟨rfl, hparts⟩

/-- A contraction happens at the root or in one of the parts. -/
theorem Verbatim.view_contracts (h : enc.Verbatim) (ht : t.Contracts t')
    (depth : Nat) :
    t.etaContract? = some t'
      ∨ ViewTo (ReflGen Contracts) (enc.view t depth) (enc.view t' depth) := by
  have hrefl : ∀ t, ReflGen Contracts t t := fun _ => .refl
  cases ht with
  | here heta => exact Or.inl heta
  | lam hbody => exact Or.inr ⟨rfl, .cons (.term (.single hbody)) .nil⟩
  | domain hdomain =>
      refine Or.inr ⟨rfl, .cons ?_ (.cons (.refl hrefl _) .nil)⟩
      split
      · exact .term (.single hdomain)
      · exact .wild
  | body hbody =>
      exact Or.inr ⟨rfl, .cons (.refl hrefl _)
        (.cons (.term (.single hbody)) .nil)⟩
  | @value s i value value' as hvalue =>
      right
      rw [view_eq_viewSpine (by rw [head_mkApp]; rfl),
        view_eq_viewSpine (by rw [head_mkApp]; rfl)]
      unfold viewSpine
      simp only [head_mkApp, args_mkApp, head, h.argParts_eq]
      exact ⟨rfl, .cons (.term (.single hvalue))
        (List.forall₂_same.mpr fun x _ => .refl hrefl x)⟩
  | @arg a a' f front back ha =>
      right
      rw [view_of_args (by simp [args_mkApp]),
        view_of_args (by simp [args_mkApp])]
      refine h.viewSpine_to hrefl ?_ ?_
      · rw [head_mkApp, head_mkApp]
      · simp only [args_mkApp]
        have hsame : ∀ as : List Term, List.Forall₂ (ReflGen Contracts) as as :=
          fun as => List.forall₂_same.mpr fun a _ => hrefl a
        exact List.rel_append (hsame _) (List.rel_append (hsame _)
          (.cons (.single ha) (hsame _)))

/-! ## Terms with contracted parts -/

/-- Contracted arguments are those of a term that the spine contracts to. -/
theorem exists_args {parts : List (Option (Term × Nat))}
    (h : List.Forall₂ (PartTo (ReflTransGen Contracts))
      (t.args.map fun a => some (a, depth)) parts) :
    ∃ t', ReflTransGen Contracts t t' ∧ t'.head = t.head
      ∧ t'.args.length = t.args.length
      ∧ parts = t'.args.map fun a => some (a, depth) := by
  obtain ⟨as, has, rfl⟩ := exists_partTo h
  obtain ⟨t', hsteps, hhead, rfl⟩ := exists_spine has
  exact ⟨t', hsteps, hhead, has.length_eq.symm, rfl⟩

theorem Verbatim.exists_viewSpine (h : enc.Verbatim)
    {parts : List (Option (Term × Nat))}
    (hparts : List.Forall₂ (PartTo (ReflTransGen Contracts))
      (enc.viewSpine t depth).parts parts) :
    ∃ t', ReflTransGen Contracts t t' ∧ t'.args.length = t.args.length
      ∧ enc.viewSpine t' depth = ⟨parts, (enc.viewSpine t depth).build⟩ := by
  unfold viewSpine at hparts ⊢
  simp only [h.argParts_eq] at hparts ⊢
  cases hhead : t.head with
  | mvar m =>
      rw [hhead] at hparts
      cases hparts
      exact ⟨t, .refl, rfl, by rw [hhead]; rfl⟩
  | bvar i =>
      simp only [hhead] at hparts ⊢
      split at hparts
      · next hi =>
          cases hparts
          exact ⟨t, .refl, rfl, by simp only [hhead, if_pos hi]; rfl⟩
      · next hi =>
          obtain ⟨t', hsteps, hhead', hlength, rfl⟩ := exists_args hparts
          exact ⟨t', hsteps, hlength, by simp only [hhead', hhead, if_neg hi]⟩
  | proj s i value =>
      rw [hhead] at hparts
      cases hparts with
      | @cons _ x _ parts hx hparts =>
      cases hx with
      | @term _ value' _ hvalue =>
      obtain ⟨t', hsteps, hhead', hlength, rfl⟩ := exists_args hparts
      refine ⟨(Term.proj s i value').mkApp t'.args, hsteps.trans ?_, ?_, ?_⟩
      · have hvalues := contracts_value (s := s) (i := i) hvalue t'.args
        rwa [← hhead, ← hhead', mkApp_head_args] at hvalues
      · rw [args_mkApp]
        exact hlength
      · rw [head_mkApp, args_mkApp]
        rfl
  | _ =>
      simp only [hhead] at hparts ⊢
      obtain ⟨t', hsteps, hhead', hlength, rfl⟩ := exists_args hparts
      exact ⟨t', hsteps, hlength, by simp only [hhead', hhead]⟩

/-- Whatever the parts of a term contract to are the parts of a term that the
whole contracts to. -/
theorem Verbatim.exists_view (h : enc.Verbatim)
    {parts : List (Option (Term × Nat))}
    (hparts : List.Forall₂ (PartTo (ReflTransGen Contracts))
      (enc.view t depth).parts parts) :
    ∃ t', ReflTransGen Contracts t t'
      ∧ enc.view t' depth = ⟨parts, (enc.view t depth).build⟩ := by
  cases t with
  | lit l | sort l | letE n ty v b =>
      cases hparts
      exact ⟨_, .refl, rfl⟩
  | lam n info domain body =>
      cases hparts with
      | cons hx hnil =>
      cases hnil
      cases hx with
      | @term _ body' _ hbody =>
      exact ⟨.lam n info domain body', hbody.lift _ fun _ _ => .lam, rfl⟩
  | pi n info domain body =>
      cases hparts with
      | cons hx hparts =>
      cases hparts with
      | cons hy hnil =>
      cases hnil
      cases hy with
      | @term _ body' _ hbody =>
      have hbodies := hbody.lift (Term.pi n info domain)
        fun _ _ => Contracts.body
      cases hindex : enc.options.indexDomains with
      | true =>
          rw [hindex] at hx
          cases hx with
          | @term _ domain' _ hdomain =>
          refine ⟨.pi n info domain' body', hbodies.trans (hdomain.lift
            (Term.pi n info · body') fun _ _ => Contracts.domain), ?_⟩
          simp only [view, hindex]
          rfl
      | false =>
          rw [hindex] at hx
          cases hx
          refine ⟨.pi n info domain body', hbodies, ?_⟩
          simp only [view, hindex]
          rfl
  | app f a =>
      obtain ⟨t', hsteps, hlength, hview⟩ := h.exists_viewSpine hparts
      refine ⟨t', hsteps, ?_⟩
      rw [view_of_args, hview]
      · rfl
      · intro hnil
        rw [hnil, args, List.length_append] at hlength
        cases hlength
  | proj s i value =>
      cases hparts with
      | cons hx hnil =>
      cases hnil
      cases hx with
      | @term _ value' _ hvalue =>
      exact ⟨.proj s i value', contracts_value hvalue [], rfl⟩
  | bvar i =>
      have hnil : (enc.view (.bvar i) depth).parts = [] := by
        simp only [view, viewSpine, head]
        split <;> rfl
      rw [hnil] at hparts
      cases hparts
      exact ⟨_, .refl, by rw [← hnil]⟩
  | const n | fvar x | mvar m =>
      cases hparts
      exact ⟨_, .refl, rfl⟩

end Encoder

end TermIndex
