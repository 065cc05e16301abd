import TermIndex.Proofs.Ranks
import TermIndex.Proofs.Reading

/-!
# Patterns up to the names of their wildcards

A sequence keeps of a wildcard only its rank: which of the different wildcards
it is, in the order in which they first occur. An anonymous wildcard differs
from all others, so it is told apart by its place (`Wild`), and the ranks are
those of a list (`ranks`).

`relabel f` gives the wildcard at place `i` the label `f i` and hides fixed
metavariables. With no labels at all it leaves the shape of the pattern, and
with the ranks for labels its standard form. The sequence of a pattern is the
sequence of its shape with the ranks for stars (`keys_eq`), and reading that
gives the standard form (`readAll_keys`). So two patterns have one sequence
exactly if they differ in names only (`keys_eq_iff`).
-/

namespace TermIndex

/-! ## Different wildcards -/

/-- What tells a wildcard from the others of its pattern: its metavariable, or
its place if it has none. -/
inductive Wild where
  | named (m : MVar)
  | lone (place : Nat)
deriving DecidableEq

namespace Wild

def ofLabel (place : Nat) : Option MVar → Wild
  | none => .lone place
  | some m => .named m

def label : Wild → Option MVar
  | .named m => some m
  | .lone _ => none

theorem label_ofLabel (place : Nat) (m : Option MVar) :
    (ofLabel place m).label = m := by
  cases m <;> rfl

theorem eq_named_of_label {w : Wild} {m : MVar} (h : w.label = some m) :
    w = .named m := by
  cases w with
  | named m' => exact congrArg named (Option.some.inj h)
  | lone place => cases h

end Wild

/-- The wildcards that carry these labels. -/
def wilds (labels : List (Option MVar)) : List Wild :=
  labels.mapIdx Wild.ofLabel

@[simp] theorem length_wilds (labels : List (Option MVar)) :
    (wilds labels).length = labels.length :=
  List.length_mapIdx

theorem wilds_concat (labels : List (Option MVar)) (m : Option MVar) :
    wilds (labels ++ [m]) = wilds labels ++ [.ofLabel labels.length m] :=
  List.mapIdx_concat

theorem wilds_append (labels more : List (Option MVar)) :
    ∃ ws, wilds (labels ++ more) = wilds labels ++ ws :=
  ⟨_, List.mapIdx_append⟩

/-- A wildcard without a metavariable is none of those before it. -/
theorem lone_notMem (labels : List (Option MVar)) :
    .lone labels.length ∉ wilds labels := by
  intro h
  obtain ⟨i, hi, heq⟩ := List.mem_mapIdx.mp h
  cases hm : labels[i] with
  | none =>
      rw [hm, Wild.ofLabel, Wild.lone.injEq] at heq
      omega
  | some m =>
      rw [hm] at heq
      cases heq

/-- If every wildcard has a metavariable, these tell them apart. -/
theorem wilds_named (ids : List Nat) :
    wilds (ids.map fun id => some ⟨id⟩) = ids.map fun id => .named ⟨id⟩ := by
  refine List.ext_getElem? fun i => ?_
  rw [wilds, List.getElem?_mapIdx, List.getElem?_map, List.getElem?_map]
  cases ids[i]? <;> rfl

theorem named_injective : Function.Injective fun id : Nat => Wild.named ⟨id⟩ := by
  intro a b h
  cases h
  rfl

theorem ranks_named (ids : List Nat) :
    ranks (ids.map fun id => Wild.named ⟨id⟩) = ranks ids :=
  ranks_map fun _ _ _ _ h => named_injective h

/-! ## Numbering -/

/-- The labels that have a number once these wildcards were met. -/
def seenIn (labels : List (Option MVar)) : List (Option MVar) :=
  (wilds labels).eraseDups.map Wild.label

theorem idxOf_seenIn (labels : List (Option MVar)) (m : MVar) :
    (seenIn labels).idxOf (some m)
      = (wilds labels).eraseDups.idxOf (.named m) :=
  idxOf_map (x := Wild.named m) fun _ _ h => Wild.eq_named_of_label h

theorem mem_seenIn_iff {labels : List (Option MVar)} {m : MVar} :
    some m ∈ seenIn labels ↔ .named m ∈ wilds labels := by
  rw [seenIn, List.mem_map]
  constructor
  · rintro ⟨w, hw, hlabel⟩
    rw [← Wild.eq_named_of_label hlabel]
    exact List.mem_eraseDups.mp hw
  · exact fun h => ⟨_, List.mem_eraseDups.mpr h, rfl⟩

/-- A wildcard that was met before has its number, and any other one gets the
next. -/
theorem seenIn_concat (labels : List (Option MVar)) (m : Option MVar) :
    seenIn (labels ++ [m])
      = if .ofLabel labels.length m ∈ wilds labels then seenIn labels
        else seenIn labels ++ [m] := by
  rw [seenIn, wilds_concat, eraseDups_concat]
  split
  · rfl
  · rw [List.map_append, List.map_singleton, Wild.label_ofLabel]
    rfl

/-- The rank of a wildcard is settled where it is met. -/
theorem getD_ranks_wilds (labels : List (Option MVar)) (m : Option MVar)
    (more : List (Option MVar)) :
    (ranks (wilds (labels ++ [m] ++ more))).getD labels.length 0
      = (wilds (labels ++ [m])).eraseDups.idxOf
          (.ofLabel labels.length m) := by
  obtain ⟨ws, hws⟩ := wilds_append (labels ++ [m]) more
  rw [hws, ranks_append, wilds_concat, ranks, List.map_append,
    List.map_singleton, List.append_assoc, List.getD_eq_getElem?_getD,
    List.getElem?_append_right (by simp)]
  simp

namespace Slot

/-- The keys of a list of slots when the wildcard at place `i` is the star
`f i`, and the first wildcard stands at `n`. -/
def spelledFrom (f : Nat → Nat) (n : Nat) : List Slot → List Key
  | [] => []
  | .key k :: rest => k :: spelledFrom f n rest
  | .wild _ :: rest => .star (f n) :: spelledFrom f (n + 1) rest

/-- A wildcard becomes the star of its rank. -/
theorem numberedFrom_seenIn (labels : List (Option MVar)) (m : Option MVar)
    (rest : List Slot) :
    (numberedFrom (seenIn labels) (.wild m :: rest)).1
      = .star ((wilds (labels ++ [m])).eraseDups.idxOf
          (.ofLabel labels.length m))
        :: (numberedFrom (seenIn (labels ++ [m])) rest).1 := by
  obtain ⟨id, seen', heq, hcases⟩ := numberedFrom_wild (seenIn labels) m rest
  have hlength : (seenIn labels).length = (wilds labels).eraseDups.length :=
    List.length_map ..
  rw [heq, seenIn_concat, wilds_concat, eraseDups_concat]
  rcases hcases with ⟨rfl, hm, hid⟩ | ⟨rfl, rfl, hnew⟩
  · -- A metavariable that has a number is a wildcard that was met.
    obtain ⟨x, rfl⟩ := Option.ne_none_iff_exists'.mp hm
    have hmem : Wild.ofLabel labels.length (some x) ∈ wilds labels := by
      refine mem_seenIn_iff.mp (Classical.byContradiction fun h => ?_)
      rw [List.idxOf?_eq_none_iff.mpr h] at hid
      cases hid
    have hidx : (seenIn labels).idxOf (some x) = id := by
      rw [List.idxOf_eq_getD_idxOf?, hid]
      rfl
    rw [idxOf_seenIn] at hidx
    rw [if_pos hmem, if_pos hmem, ← hidx]
    rfl
  · -- Anything else is new, and its number is how many there were.
    have hmem : Wild.ofLabel labels.length m ∉ wilds labels := by
      cases m with
      | none => exact lone_notMem labels
      | some x =>
          have hseen := List.idxOf?_eq_none_iff.mp (hnew x rfl)
          exact mt mem_seenIn_iff.mpr hseen
    rw [if_neg hmem, if_neg hmem,
      List.idxOf_append_of_notMem (mt List.mem_eraseDups.mp hmem),
      List.idxOf_cons_self, hlength]
    rfl

/-- Numbering by first occurrence gives every wildcard its rank among all
wildcards, those included that come later. -/
theorem numberedFrom_eq (slots : List Slot) : ∀ labels,
    (numberedFrom (seenIn labels) slots).1
      = spelledFrom
          ((ranks (wilds (labels ++ slots.filterMap wild?))).getD · 0)
          labels.length slots := by
  induction slots with
  | nil => exact fun _ => rfl
  | cons slot rest ih =>
      intro labels
      cases slot with
      | key k =>
          rw [numberedFrom_key, spelledFrom, ih]
          rfl
      | wild m =>
          have hall : labels ++ (Slot.wild m :: rest).filterMap wild?
              = (labels ++ [m]) ++ rest.filterMap wild? :=
            (List.append_assoc labels [m] _).symm
          rw [numberedFrom_seenIn, spelledFrom, hall, getD_ranks_wilds, ih,
            List.length_append]
          rfl

end Slot

namespace Pattern

/-! ## New labels -/

mutual

/-- Gives the wildcard at place `i` the label `f i`, when the first wildcard
stands at `n`. Fixed metavariables are hidden. -/
def relabelFrom (f : Nat → Option MVar) (n : Nat) : Pattern → Pattern
  | .star _ => .star (f n)
  | .hidden | .fixed _ => .hidden
  | .app h args => .app h (relabelAllFrom f n args)
  | .lit l => .lit l
  | .sort => .sort
  | .lam body => .lam (relabelFrom f n body)
  | .pi domain body =>
      .pi (relabelFrom f n domain)
        (relabelFrom f (n + domain.wildcards.length) body)
  | .proj s i value args =>
      .proj s i (relabelFrom f n value)
        (relabelAllFrom f (n + value.wildcards.length) args)

def relabelAllFrom (f : Nat → Option MVar) (n : Nat) :
    List Pattern → List Pattern
  | [] => []
  | p :: ps =>
      relabelFrom f n p :: relabelAllFrom f (n + p.wildcards.length) ps

end

def relabel (f : Nat → Option MVar) (p : Pattern) : Pattern :=
  relabelFrom f 0 p

/-- The pattern without what its wildcards and hidden subtrees are called. -/
def shape (p : Pattern) : Pattern := p.relabel fun _ => none

/-- Which of the different wildcards stands at place `i`, counted in the order
of their first occurrences. -/
def rank (p : Pattern) (i : Nat) : Nat := (ranks (wilds p.wildcards)).getD i 0

/-- The pattern whose wildcards are named by their ranks. -/
def standard (p : Pattern) : Pattern := p.relabel fun i => some ⟨p.rank i⟩

variable {p : Pattern} {k : Key}

theorem length_relabelAllFrom (f : Nat → Option MVar) (n : Nat)
    (ps : List Pattern) : (relabelAllFrom f n ps).length = ps.length := by
  induction ps generalizing n with
  | nil => rfl
  | cons p ps ih => rw [relabelAllFrom, List.length_cons, ih, List.length_cons]

theorem relabelAllFrom_append (f : Nat → Option MVar) (n : Nat)
    (ps qs : List Pattern) :
    relabelAllFrom f n (ps ++ qs)
      = relabelAllFrom f n ps
        ++ relabelAllFrom f (n + (wildcardsAll ps).length) qs := by
  induction ps generalizing n with
  | nil => rfl
  | cons p ps ih =>
      rw [List.cons_append, relabelAllFrom, relabelAllFrom, ih,
        wildcardsAll_cons, List.length_append, Nat.add_assoc]
      rfl

/-- A node stays what it is, above new labels. -/
theorem relabelFrom_of_key (f : Nat → Option MVar) (n : Nat)
    (hkey : p.key? = some k) :
    (relabelFrom f n p).key? = some k
      ∧ (relabelFrom f n p).children = relabelAllFrom f n p.children
      ∧ ∀ ts, graft k ((relabelFrom f n p).children ++ ts)
        = relabelFrom f n p :: ts := by
  cases p <;> cases hkey <;>
    simp [relabelFrom, relabelAllFrom, key?, children, graft,
      length_relabelAllFrom, wildcards]

/-- Labels are given to the children of a node, and then to the others. -/
theorem relabelAllFrom_of_key (f : Nat → Option MVar) (n : Nat)
    (hkey : p.key? = some k) (ps : List Pattern) :
    ∃ t ts, relabelAllFrom f n (p :: ps) = t :: ts ∧ t.key? = some k
      ∧ t.children ++ ts = relabelAllFrom f n (p.children ++ ps)
      ∧ graft k (relabelAllFrom f n (p.children ++ ps)) = t :: ts := by
  obtain ⟨hkey', hchildren, hgraft⟩ := relabelFrom_of_key f n hkey
  have hwild : p.wildcards = wildcardsAll p.children := by
    rw [← wildcardsAll_singleton, wildcardsAll_of_key hkey, List.append_nil]
  rw [relabelAllFrom_append, ← hchildren, hgraft, ← hwild]
  exact ⟨_, _, rfl, hkey', rfl, rfl⟩

/-! ## What stays the same -/

theorem sizes_relabelAllFrom (f : Nat → Option MVar) (ps : List Pattern) :
    ∀ n, sizes (relabelAllFrom f n ps) = sizes ps := by
  induction ps using nodes_induction with
  | nil => exact fun _ => rfl
  | star m ps ih =>
      intro n
      rw [relabelAllFrom, relabelFrom, sizes, sizes, ih]
      rfl
  | node p k ps hkey _ ih =>
      intro n
      obtain ⟨t, ts, heq, hkey', hchildren, -⟩ :=
        relabelAllFrom_of_key f n hkey ps
      rw [heq, sizes_of_key hkey', hchildren, ih, sizes_of_key hkey]

theorem wildcardsAll_relabelAllFrom (f : Nat → Option MVar)
    (ps : List Pattern) : ∀ n, wildcardsAll (relabelAllFrom f n ps)
      = (List.range' n (wildcardsAll ps).length).map f := by
  induction ps using nodes_induction with
  | nil => exact fun _ => rfl
  | star m ps ih =>
      intro n
      rw [relabelAllFrom, relabelFrom, wildcardsAll_star, ih,
        wildcardsAll_star, List.length_cons, List.range'_succ, List.map_cons]
      rfl
  | node p k ps hkey _ ih =>
      intro n
      obtain ⟨t, ts, heq, hkey', hchildren, -⟩ :=
        relabelAllFrom_of_key f n hkey ps
      rw [heq, wildcardsAll_of_key hkey', hchildren, ih,
        wildcardsAll_of_key hkey]

/-- Only the last labels count. -/
theorem relabelAllFrom_relabelAllFrom (f g : Nat → Option MVar)
    (ps : List Pattern) : ∀ n,
      relabelAllFrom f n (relabelAllFrom g n ps) = relabelAllFrom f n ps := by
  induction ps using nodes_induction with
  | nil => exact fun _ => rfl
  | star m ps ih =>
      intro n
      exact congrArg (Pattern.star (f n) :: ·) (ih (n + 1))
  | node p k ps hkey _ ih =>
      intro n
      obtain ⟨t, ts, heq, hkey', hchildren, -⟩ :=
        relabelAllFrom_of_key g n hkey ps
      obtain ⟨u, us, heq', -, -, hgraft⟩ :=
        relabelAllFrom_of_key f n hkey ps
      obtain ⟨v, vs, heq'', -, -, hgraft'⟩ :=
        relabelAllFrom_of_key f n hkey' ts
      rw [hchildren, ih, hgraft] at hgraft'
      rw [heq, heq'', ← hgraft', heq']

/-- A sequence knows nothing of labels. -/
theorem spelledFrom_relabelAllFrom (s : Nat → Nat) (f : Nat → Option MVar)
    (ps : List Pattern) : ∀ n m,
      Slot.spelledFrom s n (slotsAll (relabelAllFrom f m ps))
        = Slot.spelledFrom s n (slotsAll ps) := by
  induction ps using nodes_induction with
  | nil => exact fun _ _ => rfl
  | star m ps ih =>
      intro n j
      exact congrArg (Key.star (s n) :: ·) (ih (n + 1) (j + 1))
  | node p k ps hkey _ ih =>
      intro n m
      obtain ⟨t, ts, heq, hkey', hchildren, -⟩ :=
        relabelAllFrom_of_key f m hkey ps
      rw [heq, slotsAll_of_key hkey', hchildren, slotsAll_of_key hkey,
        Slot.spelledFrom, ih, Slot.spelledFrom]

/-- Reading turns stars into labels. -/
theorem readAll_spelledFrom (s : Nat → Nat) (ps : List Pattern) : ∀ n,
    readAll (Slot.spelledFrom s n (slotsAll ps))
      = relabelAllFrom (fun i => some ⟨s i⟩) n ps := by
  induction ps using nodes_induction with
  | nil => exact fun _ => rfl
  | star m ps ih =>
      intro n
      exact congrArg (Pattern.star (some ⟨s n⟩) :: ·) (ih (n + 1))
  | node p k ps hkey _ ih =>
      intro n
      obtain ⟨t, ts, heq, -, -, hgraft⟩ :=
        relabelAllFrom_of_key (fun i => some ⟨s i⟩) n hkey ps
      rw [heq, ← hgraft, ← ih, slotsAll_of_key hkey]
      rfl

theorem size_relabel (f : Nat → Option MVar) (p : Pattern) :
    (p.relabel f).size = p.size :=
  sizes_relabelAllFrom f [p] 0

theorem wildcards_relabel (f : Nat → Option MVar) (p : Pattern) :
    (p.relabel f).wildcards = (List.range p.wildcards.length).map f := by
  rw [← wildcardsAll_singleton, ← wildcardsAll_singleton,
    List.range_eq_range']
  exact wildcardsAll_relabelAllFrom f [p] 0

theorem relabel_relabel (f g : Nat → Option MVar) (p : Pattern) :
    (p.relabel g).relabel f = p.relabel f :=
  List.head_eq_of_cons_eq (relabelAllFrom_relabelAllFrom f g [p] 0)

theorem spelledFrom_relabel (s : Nat → Nat) (f : Nat → Option MVar)
    (p : Pattern) :
    Slot.spelledFrom s 0 (p.relabel f).slots
      = Slot.spelledFrom s 0 p.slots := by
  rw [← slotsAll_singleton, ← slotsAll_singleton]
  exact spelledFrom_relabelAllFrom s f [p] 0 0

/-! ## Sequences -/

/-- The sequence of a pattern has the rank of each wildcard for its star. -/
theorem keys_eq (p : Pattern) :
    p.keys = Slot.spelledFrom p.rank 0 p.slots :=
  Slot.numberedFrom_eq p.slots []

example :
    (Pattern.app (.const ⟨"f"⟩) [.star (some ⟨7⟩), .star none, .star (some ⟨3⟩),
      .star (some ⟨7⟩), .star none]).keys
      = [.app (.const ⟨"f"⟩) 5, .star 0, .star 1, .star 2, .star 0, .star 3] :=
  rfl

theorem readAll_keys (p : Pattern) : readAll p.keys = [p.standard] := by
  rw [keys_eq, ← slotsAll_singleton, readAll_spelledFrom]
  rfl

theorem wilds_standard (p : Pattern) :
    wilds p.standard.wildcards
      = (ranks (wilds p.wildcards)).map fun id => .named ⟨id⟩ := by
  have hranks : (List.range p.wildcards.length).map p.rank
      = ranks (wilds p.wildcards) := by
    refine List.ext_getElem (by simp) fun i hi hi' => ?_
    rw [List.getElem_map, List.getElem_range, rank,
      List.getD_eq_getElem?_getD, List.getElem?_eq_getElem hi']
    rfl
  rw [standard, wildcards_relabel, ← hranks, ← wilds_named, List.map_map]
  rfl

/-- The names of a standard form are its ranks. -/
theorem ranks_standard (p : Pattern) :
    ranks (wilds p.standard.wildcards) = ranks (wilds p.wildcards) := by
  rw [wilds_standard, ranks_named, ranks_ranks]

theorem rank_eq_of_ranks {a b : Pattern}
    (h : ranks (wilds a.wildcards) = ranks (wilds b.wildcards)) :
    a.rank = b.rank := by
  funext i
  rw [rank, rank, h]

theorem keys_standard (p : Pattern) : p.standard.keys = p.keys := by
  rw [keys_eq, rank_eq_of_ranks (ranks_standard p), standard,
    spelledFrom_relabel, keys_eq]

/-- **Patterns of one sequence.** Two patterns have the same sequence exactly if
they have the same shape and, place by place, tell the same wildcards apart. So
neither the names of wildcards nor those of fixed metavariables matter. -/
theorem keys_eq_iff (a b : Pattern) :
    a.keys = b.keys ↔ a.shape = b.shape
      ∧ ∀ i j : Nat, (wilds a.wildcards)[i]? = (wilds a.wildcards)[j]?
        ↔ (wilds b.wildcards)[i]? = (wilds b.wildcards)[j]? := by
  constructor
  · intro hkeys
    have hread := congrArg readAll hkeys
    rw [readAll_keys, readAll_keys] at hread
    have hstandard := List.head_eq_of_cons_eq hread
    have hranks : ranks (wilds a.wildcards) = ranks (wilds b.wildcards) := by
      rw [← ranks_standard, hstandard, ranks_standard]
    have hlength := congrArg List.length hranks
    rw [length_ranks, length_ranks] at hlength
    refine ⟨?_, (ranks_eq_iff hlength).mp hranks⟩
    calc a.shape = a.standard.shape := (relabel_relabel _ _ a).symm
      _ = b.standard.shape := by rw [hstandard]
      _ = b.shape := relabel_relabel _ _ b
  · rintro ⟨hshape, hsame⟩
    have hlength := congrArg (·.wildcards.length) hshape
    simp only [shape, wildcards_relabel, List.length_map, List.length_range]
      at hlength
    rw [← length_wilds, ← length_wilds b.wildcards] at hlength
    have hrank := rank_eq_of_ranks ((ranks_eq_iff hlength).mpr hsame)
    calc a.keys = Slot.spelledFrom a.rank 0 a.slots := keys_eq a
      _ = Slot.spelledFrom a.rank 0 a.shape.slots :=
        (spelledFrom_relabel _ _ a).symm
      _ = Slot.spelledFrom b.rank 0 b.shape.slots := by rw [hshape, hrank]
      _ = Slot.spelledFrom b.rank 0 b.slots := spelledFrom_relabel _ _ b
      _ = b.keys := (keys_eq b).symm

end Pattern

end TermIndex
