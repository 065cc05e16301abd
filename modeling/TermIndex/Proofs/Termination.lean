import TermIndex.Proofs.ExpandedSize
import TermIndex.Proofs.PlainEncoding
import TermIndex.Proofs.Variants
import TermIndex.Proofs.WeakHead

/-!
# Encoding ends without beta and delta

Beta steps can go on forever, and so can the unfolding of definitions. What is
left is zeta and projection. Either may make a term larger, but both take
something away once every `let` is expanded (`Takes.expandedSize_lt`), and
reduction of the value of a projection starts below the projection. So fuel for
the expanded size suffices for a reduction (`exists_reduce`), and for an encoding,
which goes on with parts of reduced and converted terms and with contracted
lambdas.

More fuel gives the same answer again (`reduce_mono`, `encode_mono`), so that
there is one answer from the expanded size on (`encoding_terminates`).
-/

namespace TermIndex

open Term

/-! ## Reduction -/

namespace Signature

variable {sig : Signature} {policy : Policy} {fuel steps : Nat} {t u : Term}
  {normal : Term → Option Reduct}

theorem mem_args_of_field? {info : StructInfo} {i : Nat} {r : Reduct}
    {field : Term} (h : field? info i r = some field) :
    ∃ value, r = .term value ∧ field ∈ value.args := by
  cases r with
  | hidden => cases h
  | term value =>
      rw [field?] at h
      split at h
      · exact ⟨value, rfl, List.mem_of_getElem? h⟩
      · cases h

/-- Without beta and delta, every step takes something away. -/
theorem Takes.expandedSize_lt (hbeta : policy.beta = false)
    (hdelta : policy.delta = false)
    (hnormal : ∀ t u, normal t = some (.term u) →
      u.expandedSize ≤ t.expandedSize)
    (h : sig.Takes policy fuel normal t (.next u)) :
    u.expandedSize < t.expandedSize := by
  cases h with
  | zeta _ => exact expandedSize_zeta _ _ _ _
  | beta h => cases hbeta.symm.trans h
  | delta h => cases hdelta.symm.trans h
  | proj _ ht _ hr hfield =>
      obtain ⟨inner, rfl, hmem⟩ := mem_args_of_field? hfield
      refine expandedSize_field ht ?_
      exact Nat.le_trans (Nat.le_of_lt (inner.expandedSize_spine.2 _ hmem))
        (hnormal _ _ hr)

theorem expandedSize_reduce_le (hbeta : policy.beta = false)
    (hdelta : policy.delta = false)
    (h : sig.reduce policy fuel steps t = some (.term u)) :
    u.expandedSize ≤ t.expandedSize := by
  induction fuel generalizing steps t u with
  | zero =>
      cases steps with
      | zero =>
          cases h
          exact Nat.le_refl _
      | succ steps => cases h
  | succ fuel ih =>
      cases steps with
      | zero =>
          cases h
          exact Nat.le_refl _
      | succ steps =>
          obtain ⟨s, hs, h⟩ := Option.bind_eq_some_iff.mp h
          cases s with
          | next t' =>
              have hlt := (takes_of_step hs nofun).expandedSize_lt hbeta hdelta
                fun t u => ih
              exact Nat.le_of_lt (Nat.lt_of_le_of_lt (ih h) hlt)
          | stop =>
              cases h
              exact Nat.le_refl _
          | hidden => cases h

/-- Whether a step is taken is known as soon as the value of a projection at the
head is reduced. -/
theorem exists_step (hbeta : policy.beta = false)
    (hnormal : ∀ s i value, t.head = .proj s i value →
      ∃ r, normal value = some r) :
    ∃ s, sig.step policy fuel normal t = some s := by
  by_cases hlet : ∃ n type value body, t = .letE n type value body
  · obtain ⟨n, type, value, body, rfl⟩ := hlet
    exact ⟨_, step_letE n type value body⟩
  cases hhead : t.head with
  | lam n info domain body =>
      rw [step_of_lam hhead, if_neg (by simp [hbeta])]
      exact ⟨.stop, rfl⟩
  | const n => exact ⟨_, step_const hhead⟩
  | proj s i value =>
      obtain ⟨r, hr⟩ := hnormal s i value hhead
      rw [step_of_proj hhead, hr]
      split
      · cases sig.struct? s with
        | none => exact ⟨.stop, rfl⟩
        | some info => exact ⟨_, rfl⟩
      · exact ⟨.stop, rfl⟩
  | _ => exact ⟨.stop, step_of_inert hlet (by rw [hhead]; rfl)⟩

/-- Fuel for the expanded size suffices for a reduction. -/
theorem exists_reduce (hbeta : policy.beta = false)
    (hdelta : policy.delta = false) (hfuel : t.expandedSize ≤ fuel) :
    ∃ r, sig.reduce policy fuel steps t = some r := by
  induction fuel generalizing steps t with
  | zero => exact absurd t.expandedSize_pos (by omega)
  | succ fuel ih =>
      cases steps with
      | zero => exact ⟨_, rfl⟩
      | succ steps =>
          obtain ⟨s, hs⟩ : ∃ s, sig.step policy fuel
              (sig.reduce policy fuel maxSteps) t = some s := by
            refine exists_step hbeta fun s i value hhead => ih ?_
            have hle := t.expandedSize_spine.1
            rw [hhead, expandedSize_proj] at hle
            omega
          simp only [reduce, hs]
          cases s with
          | next t' =>
              have hlt := (takes_of_step hs nofun).expandedSize_lt hbeta hdelta
                fun t u => expandedSize_reduce_le hbeta hdelta
              exact ih (by omega)
          | stop => exact ⟨.term t, rfl⟩
          | hidden => exact ⟨.hidden, rfl⟩

end Signature

/-! ## Encoding -/

theorem Below.expandedSize {t t' : Term} {depth d : Nat}
    (h : Below t depth t' d) : t'.expandedSize < t.expandedSize := by
  cases h with
  | arg h => exact t.expandedSize_spine.2 t' h
  | value h =>
      have hle := t.expandedSize_spine.1
      rw [h, expandedSize_proj] at hle
      omega
  | lam =>
      rw [expandedSize_lam]
      omega
  | domain | body =>
      rw [expandedSize_pi]
      omega

/-- Reduction by a signature, with fuel for everything, and relevance from any
source. -/
def Host.reducing (sig : Signature) (irrelevant : Term → Nat → Term → Bool)
    (fuel : Nat) : Host :=
  ⟨sig.whnf fuel, irrelevant, fuel⟩

namespace Encoder

variable {enc : Encoder} {host' : Host} {fuel fuel' : Nat} {t : Term}
  {depth : Nat} {alternates : Bool} {ps : List Pattern}

/-- The parts of a view are encoded as before where there is an answer
before. -/
theorem partsOf_mono {recur recur' : Recur} {v : View}
    {lists : List (List Pattern)}
    (hrecur : ∀ t d ps, recur t d alternates = some ps →
      recur' t d alternates = some ps)
    (h : partsOf recur alternates v = some lists) :
    partsOf recur' alternates v = some lists := by
  refine mapM_eq_some_iff.mpr (List.Forall₂.imp ?_ (mapM_eq_some_iff.mp h))
  rintro (_ | ⟨t, d⟩) ps hps
  · exact hps
  · exact hrecur t d ps hps

theorem contracted_mono {recur recur' : Recur}
    (hrecur : ∀ t d ps, recur t d alternates = some ps →
      recur' t d alternates = some ps)
    (h : contracted recur t depth alternates = some ps) :
    contracted recur' t depth alternates = some ps := by
  unfold contracted at h ⊢
  split at h
  · exact hrecur _ _ _ h
  · exact h

/-- A host that has an answer wherever another one has it, and the same, leaves
the encodings that there are. So does more fuel. -/
theorem encode_mono (host' : Host)
    (hirrelevant : host'.irrelevant = enc.host.irrelevant)
    (hreduce : ∀ t r, enc.host.reduce enc.options.policy t = some r →
      host'.reduce enc.options.policy t = some r)
    (hle : fuel ≤ fuel')
    (h : enc.encode fuel t depth alternates = some ps) :
    ({ enc with host := host' } : Encoder).encode fuel' t depth alternates
      = some ps := by
  have hview : ∀ t depth, ({ enc with host := host' } : Encoder).view t depth
      = enc.view t depth := by
    obtain ⟨reduce', irrelevant', f⟩ := host'
    obtain rfl : irrelevant' = enc.host.irrelevant := hirrelevant
    exact fun _ _ => rfl
  rw [encode_eq_take] at h ⊢
  obtain ⟨all, hall, rfl⟩ := Option.map_eq_some_iff.mp h
  refine Option.map_eq_some_iff.mpr ⟨all, ?_, rfl⟩
  clear h
  induction fuel generalizing fuel' t depth all with
  | zero => cases hall
  | succ fuel ih =>
      obtain ⟨fuel', rfl⟩ := Nat.exists_eq_add_one_of_ne_zero
        (Nat.ne_zero_of_lt hle)
      have hrecur : ∀ t d ps, enc.variants fuel t d alternates = some ps →
          ({ enc with host := host' } : Encoder).variants fuel' t d alternates
            = some ps := fun t d ps => ih (Nat.le_of_succ_le_succ hle) ps
      rw [variants_eq_some_iff] at hall ⊢
      refine hall.imp (fun h => ⟨hreduce t _ h.1, h.2⟩) ?_
      rintro ⟨t', lists, cs, hr, hlists, hcs, rfl⟩
      exact ⟨t', lists, cs, hreduce t _ hr,
        (hview _ _).symm ▸ partsOf_mono hrecur hlists, contracted_mono hrecur hcs,
        (hview _ _).symm ▸ rfl⟩

section

variable (sig : Signature) (irrelevant : Term → Nat → Term → Bool)
  (rules : List Conversion) (options : EncodingOptions) (mode : Mode)
  (hbeta : options.policy.beta = false)
  (hdelta : options.policy.delta = false)

include hbeta hdelta

/-- Fuel for the expanded size suffices for an encoding. -/
theorem exists_encode {t : Term} (hfuel : t.expandedSize ≤ fuel) (depth : Nat)
    (alternates : Bool) :
    ∃ ps, Encoder.encode ⟨options, rules, .reducing sig irrelevant fuel, mode⟩
      fuel t depth alternates = some ps := by
  refine encode_finishes expandedSize_pos Below.expandedSize
    expandedSize_etaContract (fun u hu => ?_) (Nat.le_refl fuel) hfuel depth
    alternates
  obtain ⟨r, hr⟩ : ∃ r, sig.reduce options.policy fuel maxSteps u = some r :=
    Signature.exists_reduce hbeta hdelta hu
  refine ⟨r, hr, ?_⟩
  rintro v rfl
  exact Nat.le_trans (expandedSize_convert_le _ v)
    (Signature.expandedSize_reduce_le hbeta hdelta hr)

end

/-- In `let x := mk a b; let y := mk x x; proj Pair 0 y` the value of `x` is
copied twice, and what is copied twice again is projected from. -/
def copied : Term :=
  .letE ⟨"x"⟩ (.sort 1)
    (.app (.app (.const ⟨"mk"⟩) (.const ⟨"a"⟩)) (.const ⟨"b"⟩))
    (.letE ⟨"y"⟩ (.sort 1) (.app (.app (.const ⟨"mk"⟩) (.bvar 0)) (.bvar 0))
      (.proj ⟨"Pair"⟩ 0 (.bvar 0)))

end Encoder

end TermIndex
