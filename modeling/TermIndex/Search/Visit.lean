import TermIndex.Search.Unify

/-!
# Visiting hits

A search can hand over each hit at the moment it is found, and be told to stop. It walks
as `unify` does, but it lists nothing: it goes down one way after the other with the state
of its visitor in hand. What comes after a pattern of the query is itself a visitor, of
the threads that come out of the pattern.

Once the visitor declines, no loop goes on, however deep it is nested: all of them put
what they have left behind `continueWith`.
-/

namespace TermIndex

/-- Takes what a search comes to, with a state of its own, and says whether the search is
to go on. -/
abbrev Visitor (σ β : Type) := σ → β → Except Fault (σ × Bool)

namespace Visitor

variable {σ β : Type}

/-- What is left of a search, unless the visitor declined before. -/
def continueWith (rest : σ → Except Fault (σ × Bool)) :
    Except Fault (σ × Bool) → Except Fault (σ × Bool)
  | .ok (s, true) => rest s
  | .ok (s, false) => .ok (s, false)
  | .error e => .error e

/-- Shows the visitor a list, until it declines. -/
def each (v : Visitor σ β) (s : σ) : List β → Except Fault (σ × Bool)
  | [] => .ok (s, true)
  | b :: rest => continueWith (fun s => each v s rest) (v s b)

end Visitor

open Visitor (continueWith)

variable {α σ : Type}

/-! ## Skipping subtrees -/

namespace Trie

mutual

/-- Shows every way to skip `pending` subtrees, which is reached behind the keys
in `passed`. -/
def visitSkips (v : Visitor σ (List Key × Trie α)) (passed : List Key) (s : σ) :
    Nat → Trie α → Except Fault (σ × Bool)
  | 0, t => v s (passed, t)
  | _ + 1, .leaf _ => .ok (s, true)
  | _ + 1, .path [] _ => .error .stuckInPath
  | pending + 1, .path ks child =>
    let (taken, owed, rest) := Key.takeSubtrees (pending + 1) ks
    if owed = 0 then v s (passed ++ taken, along rest child)
    else visitSkips v (passed ++ taken) s owed child
  | pending + 1, .node branches => visitSkipsAll v passed pending s branches

/-- Shows every way to skip one branch key and `pending` subtrees beside those that the
key owes. -/
def visitSkipsAll (v : Visitor σ (List Key × Trie α)) (passed : List Key) (pending : Nat)
    (s : σ) : List (Key × Trie α) → Except Fault (σ × Bool)
  | [] => .ok (s, true)
  | (k, t) :: rest =>
    continueWith (fun s => visitSkipsAll v passed pending s rest)
      (visitSkips v (passed ++ [k]) s (pending + k.arity) t)

end

end Trie

def Position.visitSkips (v : Visitor σ (List Key × Trie α)) (s : σ) :
    Position α → Except Fault (σ × Bool)
  | .root f => Trie.visitSkipsAll v [] 0 s f.branches
  | .inside t => Trie.visitSkips v [] s 1 t

namespace Search

/-! ## Unifying -/

/-- Shows the ways on through a node that is no wildcard of the query. Its key goes first,
with `below` for what the children and the rest of the query make of it. -/
def visitAround (o : LookupOptions) (p : Pattern) (below v : Visitor σ (Thread α)) :
    Visitor σ (Thread α) := fun s t =>
  match t.here.fault? with
  | some e => .error e
  | none =>
    continueWith (fun s => if t.starsAllowed o then v.each s (t.takenBy p) else .ok (s, true))
      (match p.key?.bind t.exact with
        | some next => below s next
        | none => .ok (s, true))

def visitSkipping (o : LookupOptions) (m : Option MVar) (v : Visitor σ (Thread α)) :
    Visitor σ (Thread α) := fun s t =>
  if t.starsAllowed o then
    t.here.visitSkips (fun s (keys, below) => match t.skipped m keys below with
      | some next => v s next
      | none => .ok (s, true)) s
  else .ok (s, true)

mutual

/-- Shows every way on from a thread through one pattern of the query. -/
def visitUnify (o : LookupOptions) :
    Pattern → Visitor σ (Thread α) → Visitor σ (Thread α)
  | .star m, v =>
    if m = none ∨ o.unify then visitSkipping o m v else visitAround o (.star m) v v
  | .app h args, v => visitAround o (.app h args) (visitUnifyAll o args v) v
  | .lam body, v => visitAround o (.lam body) (visitUnify o body v) v
  | .pi domain body, v =>
    visitAround o (.pi domain body) (visitUnify o domain (visitUnify o body v)) v
  | .proj st i value args, v =>
    visitAround o (.proj st i value args) (visitUnify o value (visitUnifyAll o args v)) v
  | .hidden, v => visitAround o .hidden v v
  | .fixed m, v => visitAround o (.fixed m) v v
  | .lit l, v => visitAround o (.lit l) v v
  | .sort, v => visitAround o .sort v v

def visitUnifyAll (o : LookupOptions) :
    List Pattern → Visitor σ (Thread α) → Visitor σ (Thread α)
  | [], v => v
  | p :: ps, v => visitUnify o p (visitUnifyAll o ps v)

end

/-- Shows the hits of a query to `f` as the search comes to them, until `f` declines to go
on. The result is false if it declined. -/
def visitHits (o : LookupOptions) (forest : Forest α) (query : Pattern)
    (f : σ → Hit α → σ × Bool) (s : σ) : Except Fault (σ × Bool) :=
  if query.isStar && ! o.allowRootStar then .ok (s, true)
  else visitUnify o query (fun s t => (finish t).map (f s)) s (Thread.start forest)

end Search

end TermIndex
