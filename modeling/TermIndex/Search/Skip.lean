import TermIndex.Search.Outcomes
import TermIndex.Search.Position

/-!
# Skipping subtrees

A wildcard of a query skips one complete stored subtree, whatever it is. `skips` lists
every way to do so, with the keys that were skipped and the place that was reached.
-/

namespace TermIndex

/-- Takes keys until no subtree is owed any more: the keys taken, the number of subtrees
still owed when they run out, and the keys left. -/
def Key.takeSubtrees : Nat → List Key → List Key × Nat × List Key
  | 0, ks => ([], 0, ks)
  | pending, [] => ([], pending, [])
  | pending + 1, k :: ks =>
    let (taken, owed, rest) := takeSubtrees (pending + k.arity) ks
    (k :: taken, owed, rest)

namespace Trie

variable {α : Type}

mutual

def skips : Nat → Trie α → Outcomes (List Key × Trie α)
  | 0, t => [.ok ([], t)]
  | _ + 1, .leaf _ => []
  | _ + 1, .path [] _ => [.error .stuckInPath]
  | pending + 1, .path ks child =>
    let (taken, owed, rest) := Key.takeSubtrees (pending + 1) ks
    if owed = 0 then [.ok (taken, along rest child)]
    else Outcomes.mapOk (fun (more, t) => (taken ++ more, t)) (skips owed child)
  | pending + 1, .node branches => skipsAll pending branches

/-- Every way to skip one branch key and `pending` subtrees beside those that the key
owes. -/
def skipsAll (pending : Nat) : List (Key × Trie α) → Outcomes (List Key × Trie α)
  | [] => []
  | (k, t) :: rest =>
    Outcomes.mapOk (fun (more, t) => (k :: more, t)) (skips (pending + k.arity) t)
      ++ skipsAll pending rest

end

end Trie

namespace Position

variable {α : Type}

def skips : Position α → Outcomes (List Key × Trie α)
  | .root f => Trie.skipsAll 0 f.branches
  | .inside t => t.skips 1

end Position

end TermIndex
