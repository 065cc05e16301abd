import TermIndex.Proofs.Parses
import TermIndex.Proofs.Shifting

/-!
# Closed terms

Without explicit indices, the variables of a term come from the names on the
stack. So a term that is read refers to no more binders than there are on the
stack where it begins, whatever it was read as part of (`Reads.within`), and a
whole text, which is read on an empty stack, is parsed as a closed term
(`parsed_closed`).

A domain in a group is read once, on the stack in front of the group, and then
moved under the names before its own: each binder sees those before it
(`Binder.Scoped`).
-/

namespace TermIndex.Surface

open Reader Term

/-! ## Terms below binders -/

theorem looseRange_resolve (σ : Scope) (word : String) :
    (σ.resolve word).looseRange ≤ σ.length := by
  unfold Scope.resolve
  split
  · next i hi =>
      obtain ⟨hlt, -⟩ := List.idxOf?_eq_some_iff.mp hi
      exact hlt
  · exact Nat.zero_le _

theorem looseRange_identifier (σ : Scope) (word : String) :
    (identifier σ word).looseRange ≤ σ.length := by
  unfold identifier
  split
  · exact Nat.zero_le _
  · split
    · exact Nat.zero_le _
    · exact looseRange_resolve σ word

theorem looseRange_mkApp {n : Nat} {f : Term} {as : List Term}
    (hf : f.looseRange ≤ n) (has : ∀ a ∈ as, a.looseRange ≤ n) :
    (f.mkApp as).looseRange ≤ n := by
  induction as generalizing f with
  | nil => exact hf
  | cons a as ih =>
      obtain ⟨ha, has⟩ := List.forall_mem_cons.mp has
      exact ih (Nat.max_le.mpr ⟨hf, ha⟩) has

theorem looseRange_translate (ns : Names) (v : Variable) :
    (ns.translate v).looseRange = 0 := by
  obtain ⟨_ | _, name⟩ := v
  · rfl
  · rfl

theorem looseRange_raise {n k : Nat} {t : Term} (h : t.looseRange ≤ n) :
    (t.raise 0 k).looseRange ≤ n + k := by
  rw [looseRange_le_iff] at h ⊢
  intro j hj
  obtain ⟨i, hi, rfl⟩ := occurs_raise.mp hj
  exact Nat.add_lt_add_right (h i hi) k

theorem looseRange_bind {q : Quantifier} {x : Name} {info : BinderInfo}
    {d body : Term} {n : Nat} (hd : d.looseRange ≤ n)
    (hbody : body.looseRange ≤ n + 1) :
    (q.bind x info d body).looseRange ≤ n := by
  have hmax : max d.looseRange (body.looseRange - 1) ≤ n := by omega
  cases q with
  | lam => exact hmax
  | pi => exact hmax

/-! ## Binders -/

/-- Each domain refers to `n` binders outside and to the binders before it. -/
def Binder.Scoped (n : Nat) : List Binder → Prop
  | [] => True
  | b :: bs => b.domain.looseRange ≤ n ∧ Scoped (n + 1) bs

theorem scoped_append {n : Nat} {bs more : List Binder} (h : Binder.Scoped n bs)
    (hmore : Binder.Scoped (n + bs.length) more) :
    Binder.Scoped n (bs ++ more) := by
  induction bs generalizing n with
  | nil => exact hmore
  | cons b bs ih =>
      refine ⟨h.1, ih h.2 ?_⟩
      rwa [Nat.add_assoc, Nat.add_comm 1]

/-- The names of a group after the first are a group below it. -/
theorem group_cons (info : BinderInfo) (d : Term) (x : String)
    (xs : List String) :
    Binder.group info d (x :: xs)
      = ⟨x, info, d⟩ :: Binder.group info (d.raise 0 1) xs := by
  simp only [Binder.group, List.mapIdx_cons, raise_raise, Nat.add_comm 1]
  rfl

theorem scoped_group (info : BinderInfo) {d : Term} {n : Nat}
    (h : d.looseRange ≤ n) (names : List String) :
    Binder.Scoped n (Binder.group info d names) := by
  induction names generalizing d n with
  | nil => trivial
  | cons x xs ih =>
      rw [group_cons]
      exact ⟨h, ih (looseRange_raise h)⟩

theorem looseRange_binds (q : Quantifier) {bs : List Binder} {body : Term}
    {n : Nat} (h : Binder.Scoped n bs) (hbody : body.looseRange ≤ n + bs.length) :
    (q.binds bs body).looseRange ≤ n := by
  induction bs generalizing n with
  | nil => exact hbody
  | cons b bs ih =>
      refine looseRange_bind h.1 (ih h.2 ?_)
      rwa [Nat.add_assoc, Nat.add_comm 1]

/-! ## Readings -/

def Token.isIndex : Token → Bool
  | .bvar _ => true
  | _ => false

/-- There is no explicit index among the tokens. -/
def NoIndex (ts : List Token) : Prop := ∀ t ∈ ts, t.isIndex = false

instance (ts : List Token) : Decidable (NoIndex ts) :=
  inferInstanceAs (Decidable (∀ t ∈ ts, _))

theorem NoIndex.suffix {ts ts' : List Token} (h : NoIndex ts)
    (hsuffix : ts' <:+ ts) : NoIndex ts' :=
  fun t ht => h t (hsuffix.subset ht)

theorem NoIndex.tail {t : Token} {ts : List Token} (h : NoIndex (t :: ts)) :
    NoIndex ts :=
  h.suffix (List.suffix_cons t ts)

theorem NoIndex.front {us ts : List Token} (h : NoIndex (us ++ ts)) :
    NoIndex ts :=
  h.suffix (List.suffix_append us ts)

/-- The terms of an item refer to at most `n` binders outside. If the item is
arguments, they do so as long as the function does. -/
def Item.Within (n : Nat) : Item → Prop
  | .term t | .application t | .atom t | .type t => t.looseRange ≤ n
  | .arguments f t => f.looseRange ≤ n → t.looseRange ≤ n
  | .binders _ bs | .group _ bs => Binder.Scoped n bs

/-- **What is read refers to binders on the stack.** -/
theorem Reads.within {i : Item} {s s' : State} (h : Reads i s s')
    (hs : NoIndex s.tokens) : i.Within s.stack.length := by
  induction h with
  | alone _ _ ih => exact ih hs
  | @arrow left right s s' σ ts ns hleft hright ihleft ihright =>
      obtain rfl : σ = s.stack := hleft.restores
      have hts := (hs.suffix hleft.takes.1).tail
      exact looseRange_bind (q := .pi) (ihleft hs) (ihright hts)
  | @application f t s s₁ s' hf hargs ihf ihargs =>
      have hstack : s₁.stack = s.stack := hf.restores
      have hargs := ihargs (hs.suffix hf.takes.1)
      rw [hstack] at hargs
      exact hargs (ihf hs)
  | done _ => exact id
  | @argument f a t s s₁ s' ha hmore iha ihmore =>
      intro hf
      have hstack : s₁.stack = s.stack := ha.restores
      have hmore := ihmore (hs.suffix ha.takes.1)
      rw [hstack] at hmore
      exact hmore (Nat.max_le.mpr ⟨hf, iha hs⟩)
  | paren _ ih => exact ih hs.tail
  | var v σ ts ns =>
      rw [Item.Within, looseRange_translate]
      exact Nat.zero_le _
  | index i => cases hs (.bvar i) (List.mem_cons_self ..)
  | nat | str | omitted => exact Nat.zero_le _
  | ident _ σ => exact looseRange_identifier σ _
  | @quantified q bs body σ ts ns s₁ s' hbs hbody ihbs ihbody =>
      have hstack : s₁.stack = Binder.enter bs σ := hbs.restores
      have hbody := ihbody (hs.tail.suffix hbs.takes.1)
      rw [hstack, length_enter, Nat.add_comm] at hbody
      exact looseRange_binds q (ihbs hs.tail) hbody
  | @letE x type value body σ σ₁ σ₂ ts ts₁ ts₂ ns ns₁ ns₂ s' hx htype hvalue
      hbody ihtype ihvalue ihbody =>
      obtain rfl : σ₁ = σ := htype.restores
      obtain rfl : σ₂ = σ₁ := hvalue.restores
      have hts₁ := (hs.tail.tail.suffix htype.takes.1).tail
      have hts₂ := (hts₁.suffix hvalue.takes.1).tail
      have hmax : max (max type.looseRange value.looseRange)
          (body.looseRange - 1) ≤ σ₂.length := by
        have htype : type.looseRange ≤ σ₂.length := ihtype hs.tail.tail
        have hvalue : value.looseRange ≤ σ₂.length := ihvalue hts₁
        have hbody : body.looseRange ≤ σ₂.length + 1 := ihbody hts₂
        omega
      exact hmax
  | proj _ _ _ ih => exact ih hs.tail.tail.tail
  | written _ ih => exact ih hs.tail
  | separator => trivial
  | bare _ _ ih => exact ⟨Nat.zero_le _, ih hs.tail⟩
  | @grouped q info bs more σ σ₁ ts ts₁ ns ns₁ s' hgroup hmore ihgroup ihmore =>
      obtain rfl : σ₁ = Binder.enter bs σ := hgroup.restores
      have hmore := ihmore (hs.front.suffix hgroup.takes.1).front
      dsimp only at hmore
      rw [length_enter, Nat.add_comm] at hmore
      exact scoped_append (ihgroup hs.front) hmore
  | group _ _ _ _ ih => exact scoped_group _ (ih hs.front) _
  | @anonymous f as _ σ =>
      refine scoped_group _ (looseRange_mkApp (looseRange_resolve σ f) ?_) _
      rintro a ha
      obtain ⟨w, -, rfl⟩ := List.mem_map.mp ha
      exact looseRange_resolve σ w

/-! ## Texts -/

/-- **Parsed terms are closed.** A text without explicit indices that is parsed is
parsed as a closed term. To parse is to read by the productions, reader by reader,
and whatever is read on the way refers to no more binders than are on the stack
where it begins. The stack is the same after a term as before it, and after
binders it has their names on it. -/
theorem parsed_closed :
    (∀ ns text t, (parse ns text).1 = .ok t →
      (∀ ls, scan text = .ok ls → NoIndex (ls.map Lexeme.token)) →
        t.looseRange = 0)
    ∧ (∀ fuel, Sound fuel)
    ∧ ∀ i s s', Reads i s s' → NoIndex s.tokens →
      i.Within s.stack.length ∧ s'.stack = i.stackAfter s.stack := by
  refine ⟨fun ns text t h hindex => ?_, sound,
    fun i s s' h hs => ⟨h.within hs, h.restores⟩⟩
  have hparse : parse ns text = (.ok t, (parse ns text).2) := Prod.ext h rfl
  obtain ⟨ls, hscan, hreads⟩ := parseUnder_eq_ok_iff.mp hparse
  exact Nat.le_zero.mp (hreads.within (hindex ls hscan))

/-- A group with two names, an instance that refers to one of them, a let and an
arrow. -/
def nested : String := "fun (x y : A) [P x] => let z := y; z -> P z"

theorem parsed_closed_nested :
    ∃ t, (parse .empty nested).1 = .ok t
      ∧ (∀ ls, scan nested = .ok ls → NoIndex (ls.map Lexeme.token))
      ∧ t.looseRange = 0
      ∧ ∃ i s s', Reads i s s' ∧ s.stack = [some "x"]
        ∧ s.tokens = [.ident "x", .rparen] ∧ NoIndex s.tokens
        ∧ i.Within 1 ∧ s'.stack = i.stackAfter [some "x"] := by
  obtain ⟨hclosed, -, hwithin⟩ := parsed_closed
  have hparse : (parse .empty nested).1 = .ok
      (.lam "x" .default (.const "A") (.lam "y" .default (.const "A")
        (.lam "inst" .inst (.app (.const "P") (.bvar 1))
          (.letE "z" (.sort 1) (.bvar 1)
            (.pi "a" .default (.bvar 0) (.app (.const "P") (.bvar 1))))))) := by
    decide +kernel
  have hscan : (scan nested).toOption.map
      (fun ls => decide (NoIndex (ls.map Lexeme.token))) = some true := by
    decide +kernel
  have hindex : ∀ ls, scan nested = .ok ls → NoIndex (ls.map Lexeme.token) := by
    intro ls hls
    rw [hls] at hscan
    exact of_decide_eq_true (Option.some.inj hscan)
  have hword : isKeyword "x" = false := rfl
  have hread := Reads.ident hword [some "x"] [.rparen] .empty
  have hfree : NoIndex [.ident "x", .rparen] := by decide
  obtain ⟨hin, hstack⟩ := hwithin _ _ _ hread hfree
  exact ⟨_, hparse, hindex, hclosed .empty nested _ hparse hindex, _, _, _, hread,
    rfl, rfl, hfree, hin, hstack⟩

end TermIndex.Surface
