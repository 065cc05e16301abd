import TermIndex.Proofs.Bare

/-!
# Encodings of bare terms

Nothing that a pattern keeps of a term is lost in its bare form, and no decision
on the way from a term to its patterns looks at anything else: not the
reduction, not the relevance of an argument (`irrelevant_bare`), not a
conversion, and not the eta contraction of a stored lambda. A term and its bare
form therefore have the same encodings (`encode_bare`), over a host whose
definitions are bare as well. So have any two terms with one bare form, and an
index cannot tell them apart: what is stored under the one is stored under the
other, and both find the same (`agree_of_bare_eq`).
-/

namespace TermIndex

/-! ## Relevance -/

namespace Term

@[simp]
theorem isSortLike_bare (t : Term) : t.bare.isSortLike = t.isSortLike := by
  induction t with
  | pi _ _ _ body _ ih => exact ih
  | _ => rfl

end Term

namespace ParamTable

variable (table : ParamTable)

theorem param?_bare (head : Term) (i : Nat) :
    table.param? head.bare i = table.param? head i := by
  cases head <;> rfl

theorem isType_bare (t : Term) : table.isType t.bare = table.isType t := by
  unfold isType
  rw [Term.isSortLike_bare, Term.head_bare]
  cases t with
  | app f a => cases (Term.app f a).head <;> rfl
  | _ => rfl

theorem isProof_bare (t : Term) : table.isProof t.bare = table.isProof t := by
  unfold isProof
  rw [Term.head_bare]
  cases t.head <;> rfl

theorem irrelevant_bare (head : Term) (i : Nat) (arg : Term) :
    table.irrelevant head.bare i arg.bare = table.irrelevant head i arg := by
  unfold irrelevant
  rw [param?_bare, isType_bare, isProof_bare]

end ParamTable

/-! ## Hosts -/

namespace Host

/-- Reduction by a signature, and relevance by a table of parameters or of all
arguments. -/
inductive Tabled : Host → Prop
  | ofTables (fuel : Nat) (sig : Signature) (table : ParamTable) :
      Tabled (.ofTables fuel sig table)
  | allRelevant (fuel : Nat) (sig : Signature) : Tabled (.allRelevant fuel sig)

/-- `host'` answers about bare terms as `host` does about the terms. -/
structure Bares (host host' : Host) : Prop where
  reduce : ∀ policy t,
    host'.reduce policy t.bare = (host.reduce policy t).map Reduct.bare
  irrelevant : ∀ head i arg,
    host'.irrelevant head.bare i arg.bare = host.irrelevant head i arg
  fuel : host'.fuel = host.fuel

theorem Tabled.exists_bares {host : Host} (h : host.Tabled) :
    ∃ host', host.Bares host' := by
  cases h with
  | ofTables fuel sig table =>
      exact ⟨.ofTables fuel sig.bare table,
        fun policy t => sig.reduce_bare policy fuel maxSteps t,
        table.irrelevant_bare, rfl⟩
  | allRelevant fuel sig =>
      exact ⟨.allRelevant fuel sig.bare,
        fun policy t => sig.reduce_bare policy fuel maxSteps t,
        fun _ _ _ => rfl, rfl⟩

end Host

/-! ## Encodings -/

namespace Encoder

/-- The encoder over another host. -/
def withHost (enc : Encoder) (host : Host) : Encoder := { enc with host }

variable {enc : Encoder} {host : Host} {recur recur' : Recur} {depth : Nat}
  {alternates : Bool}

section Node

variable (hhost : enc.host.Bares host)
  (hrecur : ∀ t depth alternates,
    recur' t.bare depth alternates = recur t depth alternates)

include hhost hrecur

theorem encodeArgs_bare (head : Term) (args : List Term) :
    (enc.withHost host).encodeArgs recur' depth alternates head.bare
        (args.map Term.bare)
      = enc.encodeArgs recur depth alternates head args := by
  unfold encodeArgs
  rw [List.zipIdx_map, List.mapM_map]
  congr 1
  funext x
  simp only [Function.comp_apply, Prod.map_fst, Prod.map_snd, id_eq, hrecur]
  rw [withHost, hhost.irrelevant]

theorem encodeSpine_bare (t : Term) :
    (enc.withHost host).encodeSpine recur' t.bare depth alternates
      = enc.encodeSpine recur t depth alternates := by
  unfold encodeSpine encodeApplied
  rw [Term.args_bare, Term.numArgs_bare, Term.head_bare,
    encodeArgs_bare hhost hrecur]
  cases t.head with
  | proj s i value =>
      simp only [Term.bare, hrecur]
      rfl
  | _ => rfl

theorem encodeShape_bare (t : Term) :
    (enc.withHost host).encodeShape recur' t.bare depth alternates
      = enc.encodeShape recur t depth alternates := by
  have hspine : (enc.withHost host).encodeSpine recur' t.bare depth alternates
      = enc.encodeSpine recur t depth alternates :=
    encodeSpine_bare hhost hrecur t
  have hcontracted : contracted recur' t.bare depth alternates
      = contracted recur t depth alternates := by
    unfold contracted
    rw [Term.etaContract?_bare]
    cases alternates <;> cases t.etaContract? <;> first | rfl | exact hrecur ..
  cases t with
  | lam n info domain body =>
      rw [encodeShape_lam, ← hcontracted, ← hrecur body]
      exact encodeShape_lam ..
  | pi n info domain body =>
      simp only [Term.bare, encodeShape, hrecur]
      rfl
  | lit | sort | letE => rfl
  | _ => exact hspine

end Node

/-- A term has the encodings of its bare form. -/
theorem encode_bare (hhost : enc.host.Bares host) (fuel : Nat) (t : Term)
    (depth : Nat) (alternates : Bool) :
    (enc.withHost host).encode fuel t.bare depth alternates
      = enc.encode fuel t depth alternates := by
  induction fuel generalizing t depth alternates with
  | zero => rfl
  | succ fuel ih =>
      have hreduce : (enc.withHost host).host.reduce
          (enc.withHost host).options.policy t.bare
          = (enc.host.reduce enc.options.policy t).map Reduct.bare :=
        hhost.reduce ..
      have hrules : (enc.withHost host).rules = enc.rules := rfl
      simp only [encode, hreduce, hrules]
      cases enc.host.reduce enc.options.policy t with
      | none => rfl
      | some r =>
          cases r with
          | hidden => rfl
          | term t' =>
              simp only [Reduct.bare, Option.map_some, Option.bind_eq_bind,
                Option.bind_some, Conversion.convertFirst?_bare,
                Option.getD_map]
              exact encodeShape_bare hhost ih _

theorem encode_eq_of_bare_eq {t u : Term} (hhost : enc.host.Tabled)
    (h : t.bare = u.bare) (fuel depth : Nat) (alternates : Bool) :
    enc.encode fuel t depth alternates
      = enc.encode fuel u depth alternates := by
  obtain ⟨host', hbares⟩ := hhost.exists_bares
  rw [← encode_bare hbares, h, encode_bare hbares]

theorem encodeAll_eq_of_bare_eq {t u : Term} (hhost : enc.host.Tabled)
    (h : t.bare = u.bare) : enc.encodeAll t = enc.encodeAll u := by
  simp only [encodeAll, encode_eq_of_bare_eq hhost h]

theorem encodeOne_eq_of_bare_eq {t u : Term} (hhost : enc.host.Tabled)
    (h : t.bare = u.bare) : enc.encodeOne t = enc.encodeOne u := by
  simp only [encodeOne, encode_eq_of_bare_eq hhost h]

end Encoder

namespace Index

/-- **Names are irrelevant.** Two terms that differ only in binder names, binder
kinds and sort levels have the same encodings, whatever the options, the rules
and the mode. In an index the one is stored where the other is, and the same is
found for both. -/
theorem agree_of_bare_eq {host : Host} {t u : Term} (hhost : host.Tabled)
    (h : t.bare = u.bare) :
    (∀ enc : Encoder, enc.host = host → enc.encodeAll t = enc.encodeAll u)
    ∧ ∀ (α : Type) [BEq α] (ix : Index α),
      ix.encodings host t = ix.encodings host u
      ∧ (∀ value, ix.insert host t value = ix.insert host u value)
      ∧ ∀ o, ix.lookup host o t = ix.lookup host o u := by
  refine ⟨?_, fun α _ ix => ?_⟩
  · rintro enc rfl
    exact Encoder.encodeAll_eq_of_bare_eq hhost h
  · have hencodings : ix.encodings host t = ix.encodings host u := by
      unfold encodings
      rw [Encoder.encodeAll_eq_of_bare_eq hhost h]
    have hquery : ∀ o, ix.query host o t = ix.query host o u := fun o => by
      unfold query
      rw [Encoder.encodeOne_eq_of_bare_eq hhost h]
    refine ⟨hencodings, fun value => ?_, fun o => ?_⟩
    · unfold insert
      rw [hencodings]
    · unfold lookup
      rw [hquery]

/-- `f (Sort 1) (fun x => k g x)` and `f (Sort 2) (fun {y} => k g y)`, where `k`
is defined as `fun z => z` and the first argument of `f` is implicit. -/
theorem agree_on_named_lambdas :
    ∃ (host : Host) (enc : Encoder) (t u : Term) (ps : List Pattern),
      host = .ofTables 9
        (Signature.empty.define ⟨"k"⟩ (.lam ⟨"z"⟩ .default (.sort 1) (.bvar 0)))
        (ParamTable.empty.setParams ⟨"f"⟩ [⟨.implicit, false⟩])
      ∧ enc = ⟨.standard, Conversion.standard, host, .store⟩
      ∧ t = .app (.app (.const ⟨"f"⟩) (.sort 1))
        (.lam ⟨"x"⟩ .default (.sort 1)
          (.app (.app (.const ⟨"k"⟩) (.const ⟨"g"⟩)) (.bvar 0)))
      ∧ u = .app (.app (.const ⟨"f"⟩) (.sort 2))
        (.lam ⟨"y"⟩ .implicit (.sort 3)
          (.app (.app (.const ⟨"k"⟩) (.const ⟨"g"⟩)) (.bvar 0)))
      ∧ t ≠ u ∧ t.bare = u.bare
      ∧ ps = [.app (.const ⟨"f"⟩)
          [.sort, .lam (.app (.const ⟨"g"⟩) [.app (.bvar 0) []])],
        .app (.const ⟨"f"⟩) [.sort, .app (.const ⟨"g"⟩) []]]
      ∧ enc.encodeAll t = some ps ∧ enc.encodeAll u = some ps
      ∧ ∀ (ix : Index Nat) (o : LookupOptions),
        ix.insert host t 7 = ix.insert host u 7
        ∧ ix.lookup host o t = ix.lookup host o u := by
  let host := Host.ofTables 9
    (Signature.empty.define ⟨"k"⟩ (.lam ⟨"z"⟩ .default (.sort 1) (.bvar 0)))
    (ParamTable.empty.setParams ⟨"f"⟩ [⟨.implicit, false⟩])
  let enc : Encoder := ⟨.standard, Conversion.standard, host, .store⟩
  let t : Term := .app (.app (.const ⟨"f"⟩) (.sort 1))
    (.lam ⟨"x"⟩ .default (.sort 1)
      (.app (.app (.const ⟨"k"⟩) (.const ⟨"g"⟩)) (.bvar 0)))
  let u : Term := .app (.app (.const ⟨"f"⟩) (.sort 2))
    (.lam ⟨"y"⟩ .implicit (.sort 3)
      (.app (.app (.const ⟨"k"⟩) (.const ⟨"g"⟩)) (.bvar 0)))
  have hhost : host.Tabled := .ofTables ..
  have hbare : t.bare = u.bare := rfl
  obtain ⟨hencodings, hindex⟩ := agree_of_bare_eq hhost hbare
  have hps : enc.encodeAll t = some [.app (.const ⟨"f"⟩)
      [.sort, .lam (.app (.const ⟨"g"⟩) [.app (.bvar 0) []])],
      .app (.const ⟨"f"⟩) [.sort, .app (.const ⟨"g"⟩) []]] := rfl
  refine ⟨host, enc, t, u, _, rfl, rfl, rfl, rfl, by decide, hbare, rfl, hps,
    (hencodings enc rfl).symm.trans hps, fun ix o => ?_⟩
  obtain ⟨-, hinsert, hlookup⟩ := hindex Nat ix
  exact ⟨hinsert 7, hlookup o⟩

end Index

end TermIndex
