import TermIndex.Trie.Basic

/-!
# Outcomes of a search

A search goes down several branches one after the other. Its outcomes are listed in the
order in which they are reached; a fault takes its place in that order, and whoever
consumes the outcomes stops there.
-/

namespace TermIndex

abbrev Outcomes (β : Type) := List (Except Fault β)

namespace Outcomes

variable {β γ σ : Type}

/-- Goes on from every outcome in turn. -/
def andThen (os : Outcomes β) (f : β → Outcomes γ) : Outcomes γ :=
  os.flatMap fun
    | .ok b => f b
    | .error e => [.error e]

def mapOk (f : β → γ) (os : Outcomes β) : Outcomes γ := os.map (Except.map f)

/-- All outcomes, or the first fault. -/
def collect (os : Outcomes β) : Except Fault (List β) := os.mapM id

/-- Shows the outcomes to `f` one after the other, until `f` declines to go on. The
result says whether it ever declined. -/
def visit (f : σ → β → σ × Bool) (s : σ) : Outcomes β → Except Fault (σ × Bool)
  | [] => .ok (s, true)
  | .error e :: _ => .error e
  | .ok b :: rest =>
    let (s, goOn) := f s b
    if goOn then visit f s rest else .ok (s, false)

end Outcomes

end TermIndex
