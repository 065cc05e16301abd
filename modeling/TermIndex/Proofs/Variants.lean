import TermIndex.Proofs.Encodings

/-!
# All encodings of a term

`variants` lists the encodings that a term would have if there were no cap: at
every node, what is built from all encodings of the parts, and then the
encodings of the contracted form that are new.

The encoder cuts its lists at every node, and inside every product. Yet a cap
only cuts the list of all encodings (`encode_eq_take`), so that a smaller cap
leaves the front of what a larger one leaves (`encodeAll_withCap`). The variants
are different from each other, and without alternates there is only the direct
one (`variants_false`), whence what is known of the encodings under any cap
(`encodeAll_capped`).
-/

namespace TermIndex

namespace Encoder

variable {enc : Encoder} {recur recur' : Recur} {t : Term} {depth fuel : Nat}
  {alternates : Bool} {ps : List Pattern}

/-- All encodings of a term, the direct one first. -/
def variants (enc : Encoder) : Nat → Term → Nat → Bool → Option (List Pattern)
  | 0, _, _, _ => none
  | fuel + 1, t, depth, alternates => do
    match ← enc.host.reduce enc.options.policy t with
    | .hidden => some [.hidden]
    | .term t' =>
      let v := enc.view (enc.convert t') depth
      let lists ← partsOf (enc.variants fuel) alternates v
      let cs ← contracted (enc.variants fuel) (enc.convert t') depth alternates
      return v.results lists cs

theorem variants_eq_some_iff :
    enc.variants (fuel + 1) t depth alternates = some ps ↔
      (enc.host.reduce enc.options.policy t = some .hidden ∧ ps = [.hidden])
      ∨ ∃ t' lists cs, enc.host.reduce enc.options.policy t = some (.term t')
        ∧ partsOf (enc.variants fuel) alternates
          (enc.view (enc.convert t') depth) = some lists
        ∧ contracted (enc.variants fuel) (enc.convert t') depth alternates
          = some cs
        ∧ ps = (enc.view (enc.convert t') depth).results lists cs := by
  simp only [variants]
  cases enc.host.reduce enc.options.policy t with
  | none => simp
  | some r =>
      cases r with
      | hidden => simp [@eq_comm _ ps]
      | term t' => simp [Option.bind_eq_some_iff, @eq_comm _ ps]

theorem mem_results {v : View} {lists : List (List Pattern)}
    {cs : List Pattern} {p : Pattern} :
    p ∈ v.results lists cs
      ↔ (∃ as ∈ products lists, v.build as = p) ∨ p ∈ cs := by
  rw [View.results, mem_distinct, List.mem_append, List.mem_map]

/-! ## Different variants -/

/-- The encodings of the parts are alternatives if the results of the recursion
are. -/
theorem alternatives_of_partsOf {v : View} {lists : List (List Pattern)}
    (h : partsOf recur alternates v = some lists)
    (hrecur : ∀ t d ps, recur t d alternates = some ps → Alternatives ps) :
    ∀ l ∈ lists, Alternatives l := by
  refine of_mapM h ?_
  rintro (_ | ⟨t, d⟩) - l hl
  · obtain rfl := Option.some.inj hl
    exact .singleton _
  · exact hrecur t d l hl

theorem alternatives_results {v : View} {lists : List (List Pattern)}
    (h : ∀ l ∈ lists, Alternatives l) (cs : List Pattern) :
    Alternatives (v.results lists cs) := by
  refine ⟨fun hnil => (Alternatives.products h).ne_nil ?_, nodup_distinct _⟩
  have hmem : ∀ ps ∈ products lists, v.build ps ∈ v.results lists cs :=
    fun ps hps => mem_distinct.mpr
      (List.mem_append_left _ (List.mem_map_of_mem hps))
  rw [hnil] at hmem
  exact List.eq_nil_iff_forall_not_mem.mpr fun ps hps =>
    List.not_mem_nil (hmem ps hps)

theorem alternatives_variants
    (h : enc.variants fuel t depth alternates = some ps) : Alternatives ps := by
  induction fuel generalizing t depth ps with
  | zero => cases h
  | succ fuel ih =>
      rcases variants_eq_some_iff.mp h with
        ⟨-, rfl⟩ | ⟨t', lists, cs, -, hlists, -, rfl⟩
      · exact .singleton _
      · exact alternatives_results
          (alternatives_of_partsOf hlists fun t d ps => ih) cs

/-! ## The cap -/

/-- A change of every result that leaves lone wildcards changes the encodings of
all parts. -/
theorem partsOf_map {f : List Pattern → List Pattern}
    (hrecur : ∀ t d, recur t d alternates = (recur' t d alternates).map f)
    (hwild : f [.star none] = [.star none]) (v : View) :
    partsOf recur alternates v
      = (partsOf recur' alternates v).map (List.map f) := by
  have hpart : View.part [.star none] (recur · · alternates)
      = fun x => (View.part [.star none] (recur' · · alternates) x).map f := by
    funext x
    rcases x with _ | ⟨t, d⟩
    · exact congrArg some hwild.symm
    · exact hrecur t d
  rw [partsOf, partsOf, hpart, mapM_option_map]

theorem contracted_map {f : List Pattern → List Pattern}
    (hrecur : ∀ t d, recur t d alternates = (recur' t d alternates).map f)
    (hnil : f [] = []) (t : Term) (depth : Nat) :
    contracted recur t depth alternates
      = (contracted recur' t depth alternates).map f := by
  unfold contracted
  cases alternates with
  | false => exact congrArg some hnil.symm
  | true =>
      cases t.etaContract? with
      | none => exact congrArg some hnil.symm
      | some t' => exact hrecur t' depth

theorem take_cap_singleton (enc : Encoder) (p : Pattern) :
    [p].take enc.cap = [p] :=
  List.take_of_length_le (Nat.le_max_left ..)

/-- A node whose parts were cut by the cap is the front of the node over all
encodings of its parts. -/
theorem encodeShape_eq_take
    (hrecur : ∀ t d, recur t d alternates
      = (recur' t d alternates).map (List.take enc.cap))
    (hall : ∀ t d ps, recur' t d alternates = some ps → Alternatives ps) :
    enc.encodeShape recur t depth alternates
      = Option.map (List.take enc.cap) (do
        let lists ← partsOf recur' alternates (enc.view t depth)
        let cs ← contracted recur' t depth alternates
        return (enc.view t depth).results lists cs) := by
  have hcs := contracted_map hrecur List.take_nil t depth
  cases hwhole : contracted recur' t depth alternates with
  | none =>
      rw [hwhole, Option.map_none] at hcs
      simp only [Option.bind_eq_bind, Option.bind_none, Option.bind_fun_none,
        Option.map_none]
      refine Option.eq_none_iff_forall_ne_some.mpr fun ps hps => ?_
      obtain ⟨cs, hcs'⟩ := exists_contracted hps
      cases hcs.symm.trans hcs'
  | some whole =>
      have hnodup : whole.Nodup := by
        unfold contracted at hwhole
        split at hwhole
        · exact (hall _ _ _ hwhole).nodup
        · obtain rfl := Option.some.inj hwhole
          exact List.nodup_nil
      rw [hwhole] at hcs
      obtain ⟨out, hout, hass⟩ := encodeShape_builtFrom enc hcs
      rw [hout, partsOf_map hrecur (enc.take_cap_singleton _)]
      cases hlists : partsOf recur' alternates (enc.view t depth) with
      | none => rfl
      | some lists =>
          exact congrArg some (hass.front lists whole
            (alternatives_of_partsOf hlists hall)
            (mapM_eq_some_iff.mp hlists).length_eq.symm hnodup rfl)

/-- **The cap only truncates.** Cutting the lists at every node leaves the front
of the list of all variants. -/
theorem encode_eq_take (enc : Encoder) (fuel : Nat) (t : Term) (depth : Nat)
    (alternates : Bool) :
    enc.encode fuel t depth alternates
      = (enc.variants fuel t depth alternates).map (List.take enc.cap) := by
  induction fuel generalizing t depth with
  | zero => rfl
  | succ fuel ih =>
      simp only [encode, variants]
      cases enc.host.reduce enc.options.policy t with
      | none => rfl
      | some r =>
          cases r with
          | hidden => exact congrArg some (enc.take_cap_singleton .hidden).symm
          | term t' =>
              exact encodeShape_eq_take (fun t d => ih t d)
                fun t d ps => alternatives_variants

/-! ## Without alternates -/

/-- Without alternates, every term has one encoding. -/
theorem variants_false (enc : Encoder) (fuel : Nat) (t : Term) (depth : Nat) :
    enc.variants fuel t depth false
      = (enc.direct fuel t depth).map fun p => [p] := by
  induction fuel generalizing t depth with
  | zero => rfl
  | succ fuel ih =>
      have hpart : View.part [.star none] (enc.variants fuel · · false)
          = fun x => (View.part (.star none) (enc.direct fuel) x).map
              fun p => [p] := by
        funext x
        rcases x with _ | ⟨t, d⟩
        · rfl
        · exact ih t d
      simp only [variants, direct]
      cases enc.host.reduce enc.options.policy t with
      | none => rfl
      | some r =>
          cases r with
          | hidden => rfl
          | term t' =>
              simp only [Option.bind_eq_bind, Option.bind_some, partsOf, hpart,
                mapM_option_map, contracted_false, Option.pure_def]
              cases (enc.view (enc.convert t') depth).parts.mapM
                  (View.part (.star none) (enc.direct fuel)) with
              | none => rfl
              | some as =>
                  simp only [Option.map_some, Option.bind_some, View.results,
                    products_lone, List.map_singleton, List.append_nil,
                    distinct_of_nodup (List.nodup_singleton _)]

/-! ## Encodings under a cap -/

/-- The encoder with another cap. -/
def withCap (enc : Encoder) (n : Nat) : Encoder :=
  { enc with options := { enc.options with maxEncodings := n } }

theorem variants_withCap (enc : Encoder) (n fuel : Nat) :
    (enc.withCap n).variants fuel = enc.variants fuel := by
  induction fuel with
  | zero => rfl
  | succ fuel ih =>
      funext t depth alternates
      simp only [variants, ih]
      rfl

/-- Whether terms are encoded with their alternates. -/
def hasAlternates (enc : Encoder) : Bool :=
  enc.mode = .store && enc.options.etaAlternates

theorem encodeAll_eq (enc : Encoder) (t : Term) :
    enc.encodeAll t
      = (enc.variants enc.host.fuel t 0 enc.hasAlternates).map
          (List.take enc.cap) := by
  rw [encodeAll, encode_eq_take]
  change Option.bind (Option.map _ (enc.variants _ t 0 enc.hasAlternates)) _ = _
  cases enc.variants enc.host.fuel t 0 enc.hasAlternates with
  | none => rfl
  | some all =>
      rw [Option.map_some, Option.bind_some, List.take_take, Nat.min_self]
      rfl

/-- **Encodings are direct first, different and capped.** When the encodings of
a term can be computed, so can the direct one. It comes first among them; no two
are the same, and there are no more than the cap allows. A query, and an encoder
without alternates, has the direct one only. -/
theorem encodeAll_capped (h : enc.encodeAll t = some ps) :
    ∃ p, enc.encodeOne t = some p ∧ ps.head? = some p ∧ ps.Nodup
      ∧ ps.length ≤ max 1 enc.options.maxEncodings
      ∧ (∀ unify, enc.mode = .query unify → ps = [p])
      ∧ (enc.options.etaAlternates = false → ps = [p]) := by
  obtain ⟨p, hp, hhead⟩ := encodeAll_head h
  rw [encodeAll_eq] at h
  obtain ⟨all, hall, rfl⟩ := Option.map_eq_some_iff.mp h
  have hlone : enc.hasAlternates = false → all.take enc.cap = [p] := by
    intro halt
    rw [halt, variants_false, hp] at hall
    obtain rfl := Option.some.inj hall
    exact enc.take_cap_singleton p
  refine ⟨p, (enc.encodeOne_eq t).trans hp, hhead,
    (alternatives_variants hall).nodup.sublist (List.take_sublist ..),
    List.length_take_le .., fun unify hmode => hlone ?_, fun heta => hlone ?_⟩
  · rw [hasAlternates, hmode]
    rfl
  · rw [hasAlternates, heta, Bool.and_false]

/-- `P (fun x y => g x y)` has three encodings: the direct one, and two in which
one or both of the lambdas are contracted. -/
theorem encodeAll_capped_nested :
    ∃ (enc : Encoder) (t : Term) (ps : List Pattern) (p : Pattern),
      enc = ⟨.standard, Conversion.standard, .ofTables 9 .empty .empty, .store⟩
      ∧ t = .app (.const ⟨"P"⟩) (.lam ⟨"x"⟩ .default (.sort 1)
        (.lam ⟨"y"⟩ .default (.sort 1)
          (.app (.app (.const ⟨"g"⟩) (.bvar 1)) (.bvar 0))))
      ∧ enc.encodeAll t = some ps ∧ ps.length = 3
      ∧ enc.encodeOne t = some p ∧ ps.head? = some p ∧ ps.Nodup
      ∧ ps.length ≤ 8 := by
  obtain ⟨p, hone, hhead, hnodup, hlength, -, -⟩ := encodeAll_capped <|
    show Encoder.encodeAll
      ⟨.standard, Conversion.standard, .ofTables 9 .empty .empty, .store⟩
      (.app (.const ⟨"P"⟩) (.lam ⟨"x"⟩ .default (.sort 1)
        (.lam ⟨"y"⟩ .default (.sort 1)
          (.app (.app (.const ⟨"g"⟩) (.bvar 1)) (.bvar 0))))) = some _ from rfl
  exact ⟨_, _, _, p, rfl, rfl, rfl, rfl, hone, hhead, hnodup, hlength⟩

/-- **The cap only truncates.** A smaller cap leaves the front of the encodings
that a larger one leaves. Whether encoding ends does not depend on the cap. -/
theorem encodeAll_withCap {k n : Nat} (h : k ≤ n) (enc : Encoder) (t : Term) :
    (enc.withCap k).encodeAll t
      = ((enc.withCap n).encodeAll t).map (List.take (max 1 k)) := by
  rw [encodeAll_eq, encodeAll_eq, variants_withCap, variants_withCap,
    Option.map_map]
  refine congrArg (Option.map · _) (funext fun all => ?_)
  change all.take (max 1 k) = (all.take (max 1 n)).take (max 1 k)
  rw [List.take_take, Nat.min_eq_left (by omega)]

/-- Of the four encodings of `R (fun x => f x) (fun x => g x)`, the first three
are left. -/
theorem encodeAll_withCap_three :
    ∃ (enc : Encoder) (t : Term) (ps : List Pattern),
      enc = ⟨.standard, Conversion.standard, .ofTables 9 .empty .empty, .store⟩
      ∧ t = .app (.app (.const ⟨"R"⟩)
          (.lam ⟨"x"⟩ .default (.sort 1) (.app (.const ⟨"f"⟩) (.bvar 0))))
        (.lam ⟨"x"⟩ .default (.sort 1) (.app (.const ⟨"g"⟩) (.bvar 0)))
      ∧ (enc.withCap 8).encodeAll t = some ps ∧ ps.length = 4
      ∧ (enc.withCap 3).encodeAll t = some (ps.take 3) := by
  refine ⟨_, _, _, rfl, rfl, rfl, rfl, ?_⟩
  exact encodeAll_withCap (by decide : 3 ≤ 8) _ _

end Encoder

end TermIndex
