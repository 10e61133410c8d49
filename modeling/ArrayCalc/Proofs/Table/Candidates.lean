import ArrayCalc.Proofs.Token.Blanks
import ArrayCalc.Proofs.Table.Names

/-! The table of a text, described without cutting the text into runs. Its names are the longest
runs without operators and brackets that are no constants, in the order of their first places, and
what ends a name at its first place decides its kind. There is one such table. -/
namespace ArrayCalc

open Text Discovery

/-- A use of a name in a text whose blanks are deleted, after `position` characters. It is the use
of an array if `[` ends the name. -/
def CandidateAt (chars : List Char) (position : Nat) (name : String) (kind : VariableKind) : Prop :=
  ∃ before run after, chars = before ++ run ++ after ∧ before.length = position ∧
    LongestRun (fun c => !isDelimiter c) before run after ∧ (∃ c ∈ run, c.isDigit = false) ∧
    String.ofList run = name ∧ (kind = .array ↔ after.head? = some '[')

def FirstAt (chars : List Char) (position : Nat) (name : String) (kind : VariableKind) : Prop :=
  CandidateAt chars position name kind ∧
    ∀ position' kind', CandidateAt chars position' name kind' → position ≤ position'

/-- The order of names by their first uses, both as the same kind. -/
def Precedes (chars : List Char) (kind : VariableKind) (a b : String) : Prop :=
  ∃ i j, FirstAt chars i a kind ∧ FirstAt chars j b kind ∧ i < j

/-- A table that holds the names used in a text, each once and as the kind of its first use, in the
order of their first uses, with no values yet. -/
structure IsDiscovery (text : String) (t : Table) : Prop where
  nodup : t.names.Nodup
  mem_iff : ∀ kind name, name ∈ t.namesOf kind ↔
    ∃ position, FirstAt (visible text.toList) position name kind
  ordered : ∀ kind, (t.namesOf kind).Pairwise (Precedes (visible text.toList) kind)
  zero : ∀ s ∈ t.scalars, s.value = 0
  empty : ∀ a ∈ t.arrays, a.size = 0

section Places

abbrev PlacedUse := Nat × String × VariableKind

/-- The names among consecutive runs, the first of which starts after `start` characters. -/
def placedUses (start : Nat) : List (List Char) → List PlacedUse
  | [] => []
  | run :: following =>
    let others := placedUses (start + run.length) following
    if isName run then (start, String.ofList run, kindBefore following) :: others else others

variable {start position : Nat} {name : String} {kind : VariableKind} {runs : List (List Char)}

theorem map_snd_placedUses (start : Nat) (runs : List (List Char)) :
    (placedUses start runs).map Prod.snd = uses runs := by
  induction runs generalizing start with
  | nil => rfl
  | cons run runs ih =>
    simp only [placedUses, uses]
    split <;> simp [ih]

theorem mem_placedUses_cons_iff {run : List Char} :
    (position, name, kind) ∈ placedUses start (run :: runs) ↔
      (isName run = true ∧ start = position ∧ String.ofList run = name ∧ kindBefore runs = kind) ∨
        (position, name, kind) ∈ placedUses (start + run.length) runs := by
  simp only [placedUses]
  split
  · simp [*, eq_comm]
  · simp [*]

theorem mem_placedUses_iff : (position, name, kind) ∈ placedUses start runs ↔
    ∃ earlier run later, runs = earlier ++ run :: later ∧ isName run = true ∧
      start + earlier.flatten.length = position ∧ String.ofList run = name ∧
      kindBefore later = kind := by
  induction runs generalizing start with
  | nil => simp [placedUses]
  | cons first runs ih =>
    rw [mem_placedUses_cons_iff, ih]
    constructor
    · rintro (⟨isName, rfl, named, before⟩ | ⟨earlier, run, later, rfl, isName, rfl, named, before⟩)
      · exact ⟨[], first, runs, rfl, isName, by simp, named, before⟩
      · exact ⟨first :: earlier, run, later, rfl, isName, by simp [Nat.add_assoc], named, before⟩
    · rintro ⟨earlier, run, later, split, isName, rfl, named, before⟩
      cases earlier with
      | nil =>
        obtain ⟨rfl, rfl⟩ := List.cons.inj split
        exact .inl ⟨isName, by simp, named, before⟩
      | cons _ earlier =>
        obtain ⟨rfl, rfl⟩ := List.cons.inj split
        exact .inr ⟨earlier, run, later, rfl, isName, by simp [Nat.add_assoc], named, before⟩

theorem pairwise_placedUses (solid : [] ∉ runs) :
    (placedUses start runs).Pairwise fun u v => u.1 < v.1 := by
  induction runs generalizing start with
  | nil => exact List.Pairwise.nil
  | cons run runs ih =>
    simp only [List.mem_cons, not_or] at solid
    simp only [placedUses]
    split
    · refine List.pairwise_cons.mpr ⟨?_, ih solid.2⟩
      rintro ⟨position, name, kind⟩ mem
      obtain ⟨earlier, _, _, -, -, rfl, -⟩ := mem_placedUses_iff.mp mem
      have wide := List.length_pos_iff.mpr (Ne.symm solid.1)
      simp only
      omega
    · exact ih solid.2

theorem isName_iff {run : List Char} : isName run = true ↔
    (∀ c ∈ run, (!isDelimiter c) = true) ∧ ∃ c ∈ run, c.isDigit = false := by
  simp [isName]

/-- The kind of a name is told by the character that ends it. -/
theorem kindBefore_eq_iff (solid : [] ∉ runs)
    (chains : ∀ run ∈ runs, run.IsChain (joinsCandidate · ·)) :
    kindBefore runs = kind ↔ (kind = .array ↔ runs.flatten.head? = some '[') := by
  have first : runs.head? = some ['['] ↔ runs.flatten.head? = some '[' := by
    cases runs with
    | nil => simp
    | cons run runs =>
      have ne : run ≠ [] := fun empty => solid (by simp [empty])
      obtain ⟨c, run, rfl⟩ := List.exists_cons_of_ne_nil ne
      simp only [List.head?_cons, Option.some.injEq, List.cons.injEq, List.flatten_cons,
        List.cons_append, and_iff_left_iff_imp]
      rintro rfl
      cases run with
      | nil => rfl
      | cons d run =>
        have joined := (List.isChain_cons_cons.mp (chains _ List.mem_cons_self)).1
        simp [joinsCandidate, isDelimiter] at joined
  rw [kindBefore, ← first]
  by_cases bracket : runs.head? = some ['['] <;> cases kind <;> simp [bracket]

theorem joinsCandidate_comm (a b : Char) : joinsCandidate a b = joinsCandidate b a :=
  Bool.and_comm ..

theorem joinsCandidate_eq {a : Char} (plain : (!isDelimiter a) = true) (b : Char) :
    joinsCandidate a b = !isDelimiter b := by
  rw [joinsCandidate, plain, Bool.true_and]

theorem isChain_joinsCandidate {run : List Char} (inside : ∀ c ∈ run, (!isDelimiter c) = true) :
    run.IsChain (joinsCandidate · ·) := by
  refine (List.pairwise_of_forall_mem_list ?_).isChain
  intro a mem b mem'
  rw [joinsCandidate, inside a mem, inside b mem']
  rfl

/-- The candidates of a text are the names among its runs. -/
theorem candidateAt_iff {chars : List Char} : CandidateAt chars position name kind ↔
    (position, name, kind) ∈ placedUses 0 (chars.splitBy joinsCandidate) := by
  rw [mem_placedUses_iff]
  constructor
  · rintro ⟨before, run, after, rfl, rfl, longest, other, rfl, ends⟩
    obtain ⟨left, right⟩ := longest.parted joinsCandidate_comm fun _ => joinsCandidate_eq
    have split := splitBy_of_parted left right longest.solid (isChain_joinsCandidate longest.inside)
    refine ⟨_, run, _, split, isName_iff.mpr ⟨longest.inside, other⟩, ?_, rfl, ?_⟩
    · rw [List.flatten_splitBy, Nat.zero_add]
    · rw [kindBefore_eq_iff (List.nil_notMem_splitBy joinsCandidate after)
        fun _ => List.isChain_of_mem_splitBy, List.flatten_splitBy]
      exact ends
  · rintro ⟨earlier, run, later, split, named, rfl, rfl, kind⟩
    obtain ⟨inside, other⟩ := isName_iff.mp named
    obtain ⟨left, right⟩ := parted_of_splitBy split
    obtain ⟨rfl, solid, chains, -⟩ := List.splitBy_eq_iff.mp split
    simp only [List.mem_append, List.mem_cons, not_or] at solid
    rw [kindBefore_eq_iff solid.2.2 fun run mem => chains run (by simp [mem])] at kind
    have longest := longestRun_of_parted joinsCandidate_comm (fun _ => joinsCandidate_eq) left right
      (Ne.symm solid.2.1) inside
    exact ⟨_, run, _, by simp, by simp, longest, other, rfl, kind⟩

end Places

section FirstUses

variable {placed : List PlacedUse} {position : Nat} {name : String} {kind used : VariableKind}

def FirstOf (placed : List PlacedUse) (position : Nat) (name : String) (kind : VariableKind) : Prop :=
  (position, name, kind) ∈ placed ∧
    ∀ position' kind', (position', name, kind') ∈ placed → position ≤ position'

theorem FirstOf.append {u : PlacedUse} (h : FirstOf placed position name kind)
    (later : ∀ v ∈ placed, v.1 < u.1) : FirstOf (placed ++ [u]) position name kind := by
  refine ⟨List.mem_append_left _ h.1, ?_⟩
  intro position' kind' mem
  rcases List.mem_append.mp mem with before | last
  · exact h.2 position' kind' before
  · obtain rfl := List.mem_singleton.mp last
    exact Nat.le_of_lt (later _ h.1)

theorem lookup_eq_some_iff_firstOf (sorted : placed.Pairwise fun u v => u.1 < v.1) :
    (placed.map Prod.snd).lookup name = some kind ↔
      ∃ position, FirstOf placed position name kind := by
  rw [List.lookup_eq_some_iff]
  constructor
  · rintro ⟨before, after, split, other⟩
    obtain ⟨earlier, rest, rfl, rfl, splitRest⟩ := List.map_eq_append_iff.mp split
    obtain ⟨⟨position, _⟩, later, rfl, rfl, rfl⟩ := List.map_eq_cons_iff.mp splitRest
    refine ⟨position, by simp, ?_⟩
    intro position' kind' mem
    rcases List.mem_append.mp mem with before | here
    · simpa using other _ (List.mem_map_of_mem before)
    · rcases List.mem_cons.mp here with same | after
      · exact Nat.le_of_eq (congrArg Prod.fst same).symm
      · have rest := (List.pairwise_append.mp sorted).2.1
        exact Nat.le_of_lt ((List.pairwise_cons.mp rest).1 _ after)
  · rintro ⟨position, mem, first⟩
    obtain ⟨before, after, rfl⟩ := List.append_of_mem mem
    refine ⟨before.map Prod.snd, after.map Prod.snd, by simp, ?_⟩
    intro use mem
    obtain ⟨⟨position', name', kind'⟩, before, rfl⟩ := List.mem_map.mp mem
    have earlier : position' < position :=
      (List.pairwise_append.mp sorted).2.2 _ before _ List.mem_cons_self
    rw [bne_iff_ne]
    rintro rfl
    have later := first position' kind' (List.mem_append_left _ before)
    omega

theorem exists_firstOf_of_mem (sorted : placed.Pairwise fun u v => u.1 < v.1)
    (mem : name ∈ firstNames (placed.map Prod.snd) kind) :
    ∃ position, FirstOf placed position name kind :=
  (lookup_eq_some_iff_firstOf sorted).mp (mem_firstNames.mp mem)

/-- The first names of placed uses stand in the order of their first places. -/
theorem pairwise_firstNames (sorted : placed.Pairwise fun u v => u.1 < v.1) (kind : VariableKind) :
    (firstNames (placed.map Prod.snd) kind).Pairwise fun a b =>
      ∃ i j, FirstOf placed i a kind ∧ FirstOf placed j b kind ∧ i < j := by
  induction placed using List.reverseRecOn with
  | nil => exact List.Pairwise.nil
  | append_singleton placed u ih =>
    obtain ⟨sortedBefore, -, last⟩ := List.pairwise_append.mp sorted
    have later : ∀ v ∈ placed, v.1 < u.1 := fun v mem => last v mem u List.mem_cons_self
    have before : (firstNames (placed.map Prod.snd) kind).Pairwise fun a b =>
        ∃ i j, FirstOf (placed ++ [u]) i a kind ∧ FirstOf (placed ++ [u]) j b kind ∧ i < j := by
      refine (ih sortedBefore).imp ?_
      rintro a b ⟨i, j, first, second, lt⟩
      exact ⟨i, j, first.append later, second.append later, lt⟩
    obtain ⟨position, name, used⟩ := u
    rw [List.map_append, List.map_singleton]
    by_cases known : name ∈ (placed.map Prod.snd).map Prod.fst
    · rwa [firstNames_append_of_mem known]
    · rw [firstNames_append_of_notMem known]
      refine List.pairwise_append.mpr ⟨before, by split <;> simp, ?_⟩
      intro a mem b new
      obtain ⟨i, first⟩ := exists_firstOf_of_mem sortedBefore mem
      obtain ⟨rfl, rfl⟩ : used = kind ∧ b = name := by
        split at new <;> simp_all
      refine ⟨i, position, first.append later, ⟨by simp, ?_⟩, later _ first.1⟩
      intro position' kind' mem'
      rcases List.mem_append.mp mem' with there | here
      · exact absurd (List.mem_map_of_mem (List.mem_map_of_mem there)) known
      · simp_all

end FirstUses

section Discovery

variable {text : String} {t t' : Table} {position : Nat} {name : String} {kind : VariableKind}

theorem firstAt_iff {chars : List Char} : FirstAt chars position name kind ↔
    FirstOf (placedUses 0 (chars.splitBy joinsCandidate)) position name kind := by
  simp only [FirstAt, FirstOf, candidateAt_iff]

theorem FirstAt.position_eq {chars : List Char} {position' : Nat} {kind' : VariableKind}
    (h : FirstAt chars position name kind) (h' : FirstAt chars position' name kind') :
    position = position' :=
  Nat.le_antisymm (h.2 position' kind' h'.1) (h'.2 position kind h.1)

instance {chars : List Char} : Std.Irrefl (Precedes chars kind) where
  irrefl := by
    rintro a ⟨i, j, first, second, lt⟩
    exact absurd (first.position_eq second) (Nat.ne_of_lt lt)

instance {chars : List Char} : Std.Antisymm (Precedes chars kind) where
  antisymm := by
    rintro a b ⟨i, j, firstA, firstB, lt⟩ ⟨j', i', firstB', firstA', lt'⟩
    rw [firstA.position_eq firstA', firstB.position_eq firstB'] at lt
    exact absurd lt (Nat.lt_asymm lt')

theorem namesOf_discover_eq (text : String) (kind : VariableKind) :
    (discover text).namesOf kind = firstNames ((placedUses 0
      ((visible text.toList).splitBy joinsCandidate)).map Prod.snd) kind := by
  rw [discover, namesOf_foldl_register, map_snd_placedUses]
  rfl

theorem isDiscovery_discover (text : String) : IsDiscovery text (discover text) where
  nodup := by
    have start : ({} : Table).names.Nodup := List.nodup_nil
    exact Table.nodup_names_foldl_register start (nameUses text)
  mem_iff kind name := by
    simp only [namesOf_discover_eq, mem_firstNames, firstAt_iff]
    exact lookup_eq_some_iff_firstOf (pairwise_placedUses (List.nil_notMem_splitBy _ _))
  ordered kind := by
    rw [namesOf_discover_eq]
    refine (pairwise_firstNames (pairwise_placedUses (List.nil_notMem_splitBy _ _)) kind).imp ?_
    rintro a b ⟨i, j, first, second, lt⟩
    exact ⟨i, j, firstAt_iff.mpr first, firstAt_iff.mpr second, lt⟩
  zero := by
    intro s mem
    rw [discover, foldl_register] at mem
    obtain ⟨name, -, rfl⟩ := List.mem_map.mp mem
    rfl
  empty := by
    intro a mem
    rw [discover, foldl_register] at mem
    obtain ⟨name, -, rfl⟩ := List.mem_map.mp mem
    rfl

namespace IsDiscovery

theorem namesOf_eq (h : IsDiscovery text t) (h' : IsDiscovery text t') (kind : VariableKind) :
    t.namesOf kind = t'.namesOf kind := by
  refine (h.ordered kind).eq_of_mem_iff (h'.ordered kind) ?_
  intro name
  rw [h.mem_iff, h'.mem_iff]

theorem scalars_eq (h : IsDiscovery text t) :
    t.scalars = (t.namesOf .scalar).map fun name => { name } := by
  rw [Table.namesOf, List.map_map]
  conv_lhs => rw [← List.map_id t.scalars]
  refine List.map_congr_left ?_
  rintro ⟨name, value⟩ mem
  obtain rfl : value = 0 := h.zero _ mem
  rfl

theorem arrays_eq (h : IsDiscovery text t) :
    t.arrays = (t.namesOf .array).map fun name => { name } := by
  rw [Table.namesOf, List.map_map]
  conv_lhs => rw [← List.map_id t.arrays]
  refine List.map_congr_left ?_
  rintro ⟨name, values⟩ mem
  obtain rfl : values = #[] := Array.eq_empty_of_size_eq_zero (h.empty _ mem)
  rfl

end IsDiscovery

/-- The table of a text is the one table that holds its names as their first uses tell. -/
theorem isDiscovery_iff : IsDiscovery text t ↔ t = discover text := by
  constructor
  · intro h
    have found := isDiscovery_discover text
    have scalars : t.scalars = (discover text).scalars := by
      rw [h.scalars_eq, found.scalars_eq, h.namesOf_eq found]
    have arrays : t.arrays = (discover text).arrays := by
      rw [h.arrays_eq, found.arrays_eq, h.namesOf_eq found]
    cases t
    simp_all
  · rintro rfl
    exact isDiscovery_discover text

end Discovery

end ArrayCalc
