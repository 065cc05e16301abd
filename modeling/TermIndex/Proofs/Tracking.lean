import Mathlib.Tactic.Common
import TermIndex.Words.Arithmetic

/-!
# Words stand for numbers

What is computed in words tracks what is computed in numbers: each of the two
arithmetics gives the number, or else the one that checks for overflow finds one
(`Tracks`). So where the checked computation ends, both arithmetics agree with
the numbers (`Tracks.of_ok`), and it stops for no other reason than an overflow
(`Tracks.of_error`).

A computation may be known to stay within its words on some condition. The
condition is part of what is said: where it holds, both arithmetics agree with
the numbers (`Tracks.agrees`). If nothing is known, it is `False`.

A computation tracks if its steps do, in the order in which they are made. Hence
there is one lemma for each operation, and its proof follows the definition.
-/

namespace TermIndex

def Fault.isOverflow : Fault → Bool
  | .sumOverflow | .differenceOverflow => true
  | _ => false

variable {α β γ : Type} {p : Prop}

/-- Both arithmetics give `a`, or else the checked one finds an overflow, which
does not happen if `p` holds. -/
def Tracks (p : Prop) (r : Overflow → Except Fault α) (a : α) : Prop :=
  (∀ o, r o = .ok a)
    ∨ ¬ p ∧ ∃ e : Fault, e.isOverflow = true ∧ r .faults = .error e

/-! ## Steps -/

section

variable {r : Overflow → Except Fault α} {a b : α}

theorem tracks_ok (a : α) : Tracks p (fun _ => .ok a) a := Or.inl fun _ => rfl

theorem Tracks.agrees (h : Tracks p r a) (hp : p) (o : Overflow) :
    r o = .ok a := by
  rcases h with h | ⟨hnot, -⟩
  · exact h o
  · exact absurd hp hnot

theorem Tracks.of_ok (h : Tracks p r a) (hr : r .faults = .ok b) :
    b = a ∧ ∀ o, r o = .ok a := by
  rcases h with h | ⟨-, e, -, he⟩
  · exact ⟨Except.ok.inj (hr.symm.trans (h .faults)), h⟩
  · rw [hr] at he
    cases he

theorem Tracks.of_error {e : Fault} (h : Tracks p r a)
    (hr : r .faults = .error e) : e.isOverflow = true := by
  rcases h with h | ⟨-, e', he', hr'⟩
  · rw [h] at hr
    cases hr
  · obtain rfl : e = e' := Except.error.inj (hr.symm.trans hr')
    exact he'

theorem Tracks.bind {g : Overflow → α → Except Fault β} {b : β}
    (hr : Tracks p r a) (hg : Tracks p (fun o => g o a) b) :
    Tracks p (fun o => r o >>= g o) b := by
  rcases hr with hr | ⟨hnot, e, he, hr⟩
  · have hstep : (fun o => r o >>= g o) = fun o => g o a := by
      funext o
      rw [hr]
      rfl
    rwa [hstep]
  · refine Or.inr ⟨hnot, e, he, ?_⟩
    change (r .faults >>= g .faults) = _
    rw [hr]
    rfl

theorem Tracks.lift (h : Tracks p r a) :
    Tracks p (fun o => (liftM (r o) : OptionT (Except Fault) α).run)
      (some a) :=
  h.bind (tracks_ok (some a))

theorem tracks_add {size i j : Nat} (h : p → i + j < size) :
    Tracks p (fun o => Word.add o size i j) (i + j) := by
  by_cases hfits : i + j < size
  · exact Or.inl fun o => if_pos hfits
  · exact Or.inr ⟨hfits ∘ h, .sumOverflow, rfl, if_neg hfits⟩

theorem tracks_sub {size i j : Nat} (h : p → j ≤ i) :
    Tracks p (fun o => Word.sub o size i j) (i - j) := by
  by_cases hle : j ≤ i
  · exact Or.inl fun o => if_pos hle
  · exact Or.inr ⟨hle ∘ h, .differenceOverflow, rfl, if_neg hle⟩

end

/-! ## Steps that may have no answer -/

section

variable {r : Overflow → OptionT (Except Fault) α} {a? b? : Option α}

theorem Tracks.andThen {g : Overflow → α → OptionT (Except Fault) β}
    {f : α → Option β} (hr : Tracks p (fun o => (r o).run) a?)
    (hg : ∀ a, a? = some a → Tracks p (fun o => (g o a).run) (f a)) :
    Tracks p (fun o => (r o >>= g o).run) (a?.bind f) := by
  simp only [OptionT.run_bind]
  refine Tracks.bind hr ?_
  cases a? with
  | none => exact tracks_ok none
  | some a => exact hg a rfl

theorem Tracks.map (hr : Tracks p (fun o => (r o).run) a?) (f : α → β) :
    Tracks p (fun o => (r o >>= fun a => pure (f a)).run) (a?.map f) := by
  rw [Option.map_eq_bind]
  exact Tracks.andThen hr fun _ _ => tracks_ok _

theorem Tracks.orElse {s : Overflow → OptionT (Except Fault) α}
    (hr : Tracks p (fun o => (r o).run) a?)
    (hs : Tracks p (fun o => (s o).run) b?) :
    Tracks p (fun o => (r o <|> s o).run) (a?.or b?) := by
  simp only [OptionT.run_orElse]
  refine Tracks.bind hr ?_
  cases a? with
  | none => exact hs
  | some a => exact tracks_ok (some a)

theorem Tracks.mapM {f : Overflow → γ → OptionT (Except Fault) α}
    {g : γ → Option α} {cs : List γ}
    (h : ∀ c ∈ cs, Tracks p (fun o => (f o c).run) (g c)) :
    Tracks p (fun o => (cs.mapM (f o)).run) (cs.mapM g) := by
  induction cs with
  | nil => exact tracks_ok _
  | cons c cs ih =>
      obtain ⟨hc, hcs⟩ := List.forall_mem_cons.mp h
      simp only [List.mapM_cons]
      exact Tracks.andThen hc fun _ _ =>
        Tracks.andThen (ih hcs) fun _ _ => tracks_ok _

end

end TermIndex
