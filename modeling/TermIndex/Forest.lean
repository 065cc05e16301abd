import TermIndex.Trie.Check
import TermIndex.Trie.Insert
import TermIndex.Trie.Printer

/-!
# Forests

A forest holds a trie for each first key of a sequence, in increasing order of these
keys. It may hold any number of tries, also none or one.
-/

namespace TermIndex

structure Forest (α : Type) where
  branches : List (Key × Trie α)
  increasing : Key.Increasing (Trie.branchKeys branches)

namespace Forest

variable {α β : Type}

def empty : Forest α := ⟨[], .nil⟩

def isEmpty (f : Forest α) : Bool := f.branches.isEmpty

def get? (f : Forest α) (k : Key) : Option (Trie α) := f.branches.lookup k

/-- The branches whose keys come before `k`. -/
def before (f : Forest α) (k : Key) : List (Key × Trie α) :=
  f.branches.takeWhile fun b => b.1.precedes k

/-- Puts a trie below a key, before the first key that comes after it. -/
def setIn (k : Key) (t : Trie α) : List (Key × Trie α) → List (Key × Trie α)
  | [] => [(k, t)]
  | (k', t') :: rest =>
    match compare k k' with
    | .lt => (k, t) :: (k', t') :: rest
    | .eq => (k, t) :: rest
    | .gt => (k', t') :: setIn k t rest

theorem mem_branchKeys_setIn {k c : Key} {t : Trie α} {bs : List (Key × Trie α)}
    (h : c ∈ Trie.branchKeys (setIn k t bs)) : c = k ∨ c ∈ Trie.branchKeys bs := by
  induction bs with
  | nil => simpa [setIn, Trie.branchKeys] using h
  | cons b rest ih =>
    unfold setIn at h
    simp only [Trie.branchKeys] at *
    split at h <;> grind

theorem increasing_setIn {k : Key} {t : Trie α} {bs : List (Key × Trie α)}
    (h : Key.Increasing (Trie.branchKeys bs)) :
    Key.Increasing (Trie.branchKeys (setIn k t bs)) := by
  induction bs with
  | nil => exact List.pairwise_singleton _ _
  | cons b rest ih =>
    obtain ⟨k', t'⟩ := b
    obtain ⟨first, others⟩ := List.pairwise_cons.mp h
    unfold setIn
    split
    · next lt =>
      have kk' : k.precedes k' := Key.precedes_iff.mpr lt
      refine List.pairwise_cons.mpr ⟨fun c hc => ?_, h⟩
      rcases List.mem_cons.mp hc with rfl | hc
      · exact kk'
      · exact Key.precedes_trans kk' (first c hc)
    · next eq =>
      obtain rfl := Std.LawfulEqOrd.eq_of_compare eq
      exact List.pairwise_cons.mpr ⟨first, others⟩
    · next gt =>
      refine List.pairwise_cons.mpr ⟨fun c hc => ?_, ih others⟩
      rcases mem_branchKeys_setIn hc with rfl | hc
      · exact Key.precedes_iff.mpr (Std.OrientedCmp.lt_of_gt gt)
      · exact first c hc

def set (f : Forest α) (k : Key) (t : Trie α) : Forest α :=
  ⟨setIn k t f.branches, increasing_setIn f.increasing⟩

/-- The forest of some tries, of which a later one takes the place of an earlier one. -/
def ofList (branches : List (Key × Trie α)) : Forest α :=
  branches.foldl (fun f b => f.set b.1 b.2) empty

/-- The forest with `value` added at the end of `keys`. -/
def insert [BEq α] (f : Forest α) (keys : List Key) (value : α) : Except Fault (Forest α) :=
  match keys with
  | [] => .error .emptySequence
  | k :: rest => do
    let t ← match f.get? k with
      | some t => t.insert rest value
      | none => .ok (.single rest value)
    return f.set k t

def entries (f : Forest α) : List (List Key × List α) := Trie.entriesFromAll [] f.branches

def numLeaves (f : Forest α) : Nat := Trie.numLeavesAll f.branches

theorem branchKeys_mapAll (g : α → β) (bs : List (Key × Trie α)) :
    Trie.branchKeys (Trie.mapAll g bs) = Trie.branchKeys bs := by
  induction bs with
  | nil => rfl
  | cons b rest ih => simpa [Trie.mapAll, Trie.branchKeys] using ih

/-- The forest of the same shape that holds `g` of each value. -/
def map (g : α → β) (f : Forest α) : Forest β :=
  ⟨Trie.mapAll g f.branches, by rw [branchKeys_mapAll]; exact f.increasing⟩

/-- Checks the shape of every trie, and that its sequences are complete. -/
def check (f : Forest α) : Except Fault Unit := Trie.checkAll 1 f.branches

def render (showValues : List α → String) (f : Forest α) : String :=
  Trie.linesAll showValues 0 f.branches

end Forest

end TermIndex
