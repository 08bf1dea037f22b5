import ProtocolInference.Abstraction.Counterexample
import ProtocolInference.Proofs.Abstraction.Projection

/-!
# The order in which paths are visited

A search for a counterexample follows it from every initial block in turn. It visits a
path before the paths that go on from it, and goes on to smaller blocks first. So it
visits the paths along the first events in ascending lexicographic order, each once. The
complete paths are those among them that reach the end, in the same order, and the
longest path is the first of the longest ones that are visited. A search that keeps the
paths to be followed on an agenda visits the same paths in the same order.
-/

namespace ProtocolInference.Abstraction

variable {g : Abstraction} {p : Nat} {es : List Event} {path : List Nat}

/-! ### Connected blocks -/

/-- Each block is a successor of the one before it on the next of the events. -/
def Connected (g : Abstraction) (es : List Event) (path : List Nat) : Prop :=
  ∀ i p q, path[i]? = some p → path[i + 1]? = some q → ∃ e, es[i]? = some e ∧ q ∈ g.next p e

theorem connected_single (g : Abstraction) (es : List Event) (p : Nat) : g.Connected es [p] := by
  intro i a b _ hb
  simp at hb

theorem connected_cons_cons_iff {q : Nat} {rest : List Nat} :
    g.Connected es (p :: q :: rest) ↔
      ∃ e es', es = e :: es' ∧ q ∈ g.next p e ∧ g.Connected es' (q :: rest) := by
  constructor
  · intro h
    obtain ⟨e, he, hq⟩ := h 0 p q rfl rfl
    cases es with
    | nil => cases he
    | cons f es' =>
      injection he with he
      subst he
      exact ⟨f, es', rfl, hq, fun i a b ha hb => h (i + 1) a b ha hb⟩
  · rintro ⟨e, es', hes, hq, hrest⟩ i a b ha hb
    subst hes
    cases i with
    | zero =>
      injection ha with ha
      injection hb with hb
      subst ha hb
      exact ⟨e, rfl, hq⟩
    | succ i => exact hrest i a b ha hb

/-! ### The paths that are visited -/

def visitsFrom (g : Abstraction) (p : Nat) : List Event → List (List Nat)
  | [] => [[p]]
  | e :: es => [p] :: ((g.next p e).flatMap fun q => visitsFrom g q es).map (p :: ·)

/-- The paths along the first events, in the order in which they are visited. -/
def visits (g : Abstraction) (es : List Event) : List (List Nat) :=
  g.initialIds.flatMap fun p => g.visitsFrom p es

theorem mem_visitsFrom_iff : path ∈ g.visitsFrom p es ↔
    path.head? = some p ∧ g.Connected es path := by
  induction es generalizing p path with
  | nil =>
    rw [visitsFrom, List.mem_singleton]
    constructor
    · intro h
      rw [h]
      exact ⟨rfl, connected_single g [] p⟩
    · rintro ⟨hhead, hconnected⟩
      match path, hhead with
      | [_], rfl => rfl
      | a :: b :: rest, _ =>
        obtain ⟨e, es', hes, -⟩ := connected_cons_cons_iff.mp hconnected
        cases hes
  | cons e es ih =>
    rw [visitsFrom, List.mem_cons, List.mem_map]
    constructor
    · rintro (h | ⟨tail, htail, h⟩)
      · rw [h]
        exact ⟨rfl, connected_single g _ p⟩
      · obtain ⟨q, hq, hmem⟩ := List.mem_flatMap.mp htail
        obtain ⟨hhead, hconnected⟩ := ih.mp hmem
        obtain ⟨rest, hrest⟩ := List.head?_eq_some_iff.mp hhead
        rw [← h]
        rw [hrest] at hconnected ⊢
        exact ⟨rfl, connected_cons_cons_iff.mpr ⟨e, es, rfl, hq, hconnected⟩⟩
    · rintro ⟨hhead, hconnected⟩
      match path, hhead with
      | [_], rfl => exact Or.inl rfl
      | p :: q :: rest, rfl =>
        obtain ⟨f, es', hes, hq, hrest⟩ := connected_cons_cons_iff.mp hconnected
        injection hes with he hes
        subst he hes
        exact Or.inr ⟨q :: rest, List.mem_flatMap.mpr ⟨q, hq, ih.mpr ⟨rfl, hrest⟩⟩, rfl⟩

/-- The path begins with an initial block and follows the first of the events. -/
structure Follows (g : Abstraction) (es : List Event) (path : List Nat) : Prop where
  starts : ∃ p b, path.head? = some p ∧ g.block? p = some b ∧ b.initial = true
  connected : g.Connected es path

theorem Grouped.mem_initialIds_iff (hg : g.Grouped) :
    p ∈ g.initialIds ↔ ∃ b, g.block? p = some b ∧ b.initial = true := by
  simp only [initialIds, idsWhere, List.mem_map, List.mem_filter, mem_live]
  constructor
  · rintro ⟨b, ⟨⟨q, hq⟩, hinit⟩, hid⟩
    rw [← hid, (hg.fits hq).id_eq]
    exact ⟨b, hq, hinit⟩
  · rintro ⟨b, hb, hinit⟩
    exact ⟨b, ⟨⟨p, hb⟩, hinit⟩, (hg.fits hb).id_eq⟩

theorem Grouped.mem_visits_iff (hg : g.Grouped) : path ∈ g.visits es ↔ g.Follows es path := by
  simp only [visits, List.mem_flatMap, mem_visitsFrom_iff, hg.mem_initialIds_iff]
  constructor
  · rintro ⟨p, ⟨b, hb, hinit⟩, hhead, hconnected⟩
    exact ⟨⟨p, b, hhead, hb, hinit⟩, hconnected⟩
  · rintro ⟨⟨p, b, hhead, hb, hinit⟩, hconnected⟩
    exact ⟨p, ⟨b, hb, hinit⟩, hhead, hconnected⟩

/-! ### Their order -/

theorem Grouped.sorted_initialIds (hg : g.Grouped) : g.initialIds.Pairwise (· < ·) :=
  hg.sorted_ids.sublist (List.filter_sublist.map _)

theorem sorted_targets {ts : Transitions} (hts : Ascending.Sorted ts) (e : Event) :
    (ts.targets e).Pairwise (· < ·) := by
  rw [Transitions.targets, List.pairwise_map, List.pairwise_filter]
  refine hts.imp fun {x y} hlt hx hy => ?_
  rw [beq_iff_eq] at hx hy
  obtain ⟨f, a⟩ := x
  obtain ⟨f', b⟩ := y
  subst hx hy
  have hcompare : (compare f' f').then (compare a b) = .lt := hlt
  rw [Std.ReflOrd.compare_self] at hcompare
  exact Nat.compare_eq_lt.mp hcompare

theorem Coherent.sorted_next (hg : g.Coherent) (p : Nat) (e : Event) :
    (g.next p e).Pairwise (· < ·) := by
  unfold next
  cases hb : g.block? p with
  | none => exact .nil
  | some b =>
    have hts : Ascending.Sorted (g.transitionsOf b) := by
      rw [hg.transitionsOf_eq hb]
      exact Ascending.sorted_ofList _
    exact sorted_targets hts e

/-- Paths in lexicographic order, which puts a path before those that go on from it. -/
def Precedes : List Nat → List Nat → Prop := List.Lex (· < ·)

theorem Precedes.ne {path path' : List Nat} (h : Precedes path path') : path ≠ path' := by
  rintro rfl
  exact List.lex_irrefl Nat.lt_irrefl path h

/-- Ascending groups of paths are in ascending order if their first blocks are. -/
theorem sorted_flatMap {ids : List Nat} {paths : Nat → List (List Nat)}
    (hids : ids.Pairwise (· < ·)) (hpaths : ∀ p ∈ ids, (paths p).Pairwise Precedes)
    (hhead : ∀ p, ∀ path ∈ paths p, path.head? = some p) :
    (ids.flatMap paths).Pairwise Precedes := by
  rw [List.pairwise_flatMap]
  refine ⟨hpaths, hids.imp fun {p q} hlt x hx y hy => ?_⟩
  obtain ⟨xs, hxs⟩ := List.head?_eq_some_iff.mp (hhead p x hx)
  obtain ⟨ys, hys⟩ := List.head?_eq_some_iff.mp (hhead q y hy)
  rw [hxs, hys]
  exact .rel hlt

theorem head?_of_mem_visitsFrom (h : path ∈ g.visitsFrom p es) : path.head? = some p :=
  (mem_visitsFrom_iff.mp h).1

theorem Coherent.sorted_visitsFrom (hg : g.Coherent) (p : Nat) (es : List Event) :
    (g.visitsFrom p es).Pairwise Precedes := by
  induction es generalizing p with
  | nil => exact List.pairwise_singleton _ _
  | cons e es ih =>
    rw [visitsFrom, List.pairwise_cons, List.pairwise_map]
    constructor
    · intro path hpath
      obtain ⟨tail, htail, hcons⟩ := List.mem_map.mp hpath
      obtain ⟨q, -, hmem⟩ := List.mem_flatMap.mp htail
      obtain ⟨rest, hrest⟩ := List.head?_eq_some_iff.mp (head?_of_mem_visitsFrom hmem)
      rw [← hcons, hrest]
      exact .cons .nil
    · have hsorted := sorted_flatMap (hg.sorted_next p e) (fun q _ => ih q)
        fun q path hpath => head?_of_mem_visitsFrom hpath
      exact hsorted.imp .cons

theorem Coherent.sorted_visits (hg : g.Coherent) (es : List Event) :
    (g.visits es).Pairwise Precedes :=
  sorted_flatMap hg.toGrouped.sorted_initialIds (fun p _ => hg.sorted_visitsFrom p es)
    fun _ _ hpath => head?_of_mem_visitsFrom hpath

/-! ### Complete paths -/

/-- Whether the path follows all events and ends in an accepting block. -/
def reachesEnd (g : Abstraction) (es : List Event) (path : List Nat) : Bool :=
  path.length == es.length + 1 && path.getLast?.any g.accepts

theorem reachesEnd_cons {e : Event} (hpath : path ≠ []) :
    g.reachesEnd (e :: es) (p :: path) = g.reachesEnd es path := by
  cases path with
  | nil => exact absurd rfl hpath
  | cons q rest => simp [reachesEnd, List.getLast?_cons_cons]

theorem pathsFrom_eq (g : Abstraction) (p : Nat) (es : List Event) :
    g.pathsFrom p es = (g.visitsFrom p es).filter (g.reachesEnd es) := by
  induction es generalizing p with
  | nil =>
    by_cases hacc : g.accepts p = true
    · simp [pathsFrom, visitsFrom, reachesEnd, hacc]
    · simp [pathsFrom, visitsFrom, reachesEnd, hacc]
  | cons e es ih =>
    have hshort : g.reachesEnd (e :: es) [p] = false := by simp [reachesEnd]
    have htails : ∀ path ∈ (g.next p e).flatMap (g.visitsFrom · es),
        (g.reachesEnd (e :: es) ∘ (p :: ·)) path = g.reachesEnd es path := by
      intro path hpath
      obtain ⟨q, -, hmem⟩ := List.mem_flatMap.mp hpath
      have hne : path ≠ [] := by
        intro hnil
        have hhead := head?_of_mem_visitsFrom hmem
        rw [hnil] at hhead
        cases hhead
      exact reachesEnd_cons hne
    calc g.pathsFrom p (e :: es)
        = ((g.next p e).flatMap fun q => (g.visitsFrom q es).filter (g.reachesEnd es)).map
            (p :: ·) := by
          rw [pathsFrom]
          simp only [ih]
      _ = (((g.next p e).flatMap (g.visitsFrom · es)).filter (g.reachesEnd es)).map (p :: ·) := by
          rw [List.filter_flatMap]
      _ = (g.visitsFrom p (e :: es)).filter (g.reachesEnd (e :: es)) := by
          rw [visitsFrom, List.filter_cons_of_neg (by simp [hshort]), List.filter_map,
            List.filter_congr htails]

theorem completePaths_eq (g : Abstraction) (es : List Event) :
    g.completePaths es = ((g.visits es).filter (g.reachesEnd es)).map (⟨es, ·⟩) := by
  rw [completePaths, visits, List.filter_flatMap]
  simp only [pathsFrom_eq]

/-! ### The longest path -/

def longer (best path : List Nat) : List Nat := if best.length < path.length then path else best

theorem firstLongest_eq (paths : List (List Nat)) : firstLongest paths = paths.foldl longer [] := rfl

instance : Std.Associative longer where
  assoc a b c := by
    unfold longer
    grind

theorem nil_longer (path : List Nat) : longer [] path = path := by
  cases path <;> rfl

theorem longer_nil (best : List Nat) : longer best [] = best := if_neg (Nat.not_lt_zero _)

theorem firstLongest_append (xs ys : List (List Nat)) :
    firstLongest (xs ++ ys) = longer (firstLongest xs) (firstLongest ys) := by
  calc firstLongest (xs ++ ys)
      = ys.foldl longer (longer (firstLongest xs) []) := by
        rw [longer_nil, firstLongest_eq, List.foldl_append, firstLongest_eq]
    _ = longer (firstLongest xs) (ys.foldl longer []) := List.foldl_assoc

theorem firstLongest_cons (path : List Nat) (paths : List (List Nat)) :
    firstLongest (path :: paths) = longer path (firstLongest paths) := by
  have hsingle : firstLongest [path] = path := nil_longer path
  rw [← List.singleton_append, firstLongest_append, hsingle]

theorem firstLongest_flatMap {α : Type} (xs : List α) (f : α → List (List Nat)) :
    firstLongest (xs.flatMap f) = firstLongest (xs.map fun x => firstLongest (f x)) := by
  induction xs with
  | nil => rfl
  | cons x xs ih =>
    rw [List.flatMap_cons, firstLongest_append, ih, List.map_cons, firstLongest_cons]

theorem firstLongest_map_cons (p : Nat) (paths : List (List Nat)) :
    firstLongest ([p] :: paths.map (p :: ·)) = p :: firstLongest paths := by
  have hall : ∀ best, (paths.map (p :: ·)).foldl longer (p :: best) =
      p :: paths.foldl longer best := by
    induction paths with
    | nil => exact fun best => rfl
    | cons path paths ih =>
      intro best
      have hone : longer (p :: best) (p :: path) = p :: longer best path := by
        unfold longer
        grind
      rw [List.map_cons, List.foldl_cons, List.foldl_cons, hone, ih]
  exact hall []

theorem longestFrom_eq (g : Abstraction) (p : Nat) (es : List Event) :
    g.longestFrom p es = firstLongest (g.visitsFrom p es) := by
  induction es generalizing p with
  | nil => rfl
  | cons e es ih =>
    rw [longestFrom, visitsFrom, firstLongest_map_cons, firstLongest_flatMap]
    simp only [ih]

/-- The best path is the first of the longest that are visited, whichever initial block
they begin with. -/
theorem longestPath?_eq (g : Abstraction) (es : List Event) : g.longestPath? es =
    if (firstLongest (g.visits es)).length ≤ 1 then none
    else some ⟨es, firstLongest (g.visits es)⟩ := by
  rw [longestPath?, visits, firstLongest_flatMap]
  simp only [longestFrom_eq]

theorem firstLongest_mem (paths : List (List Nat)) :
    firstLongest paths = [] ∨ firstLongest paths ∈ paths := by
  induction paths with
  | nil => exact Or.inl rfl
  | cons path paths ih =>
    right
    rw [firstLongest_cons, longer]
    split
    · rename_i hlonger
      have hne : firstLongest paths ≠ [] := by
        intro hnil
        rw [hnil] at hlonger
        exact Nat.not_lt_zero _ hlonger
      exact List.mem_cons_of_mem _ (ih.resolve_left hne)
    · exact List.mem_cons_self ..

/-- The first of the longest of ascending paths is the least of them. -/
theorem firstLongest_spec {paths : List (List Nat)} (hpaths : paths.Pairwise Precedes) :
    ∀ path ∈ paths, path.length ≤ (firstLongest paths).length ∧
      (path.length = (firstLongest paths).length →
        path = firstLongest paths ∨ Precedes (firstLongest paths) path) := by
  induction paths with
  | nil => exact fun path hpath => absurd hpath List.not_mem_nil
  | cons first paths ih =>
    obtain ⟨hfirst, hrest⟩ := List.pairwise_cons.mp hpaths
    intro path hpath
    rw [firstLongest_cons, longer]
    split
    · rename_i hlonger
      rcases List.mem_cons.mp hpath with hpath | hpath
      · rw [hpath]
        exact ⟨hlonger.le, fun heq => absurd heq hlonger.ne⟩
      · exact ih hrest path hpath
    · rename_i hnot
      rcases List.mem_cons.mp hpath with hpath | hpath
      · rw [hpath]
        exact ⟨le_rfl, fun _ => Or.inl rfl⟩
      · have hle := (ih hrest path hpath).1
        exact ⟨by omega, fun _ => Or.inr (hfirst path hpath)⟩

/-! ### A search with an agenda -/

/-- The paths that go on from the given one by one block. -/
def extensions (g : Abstraction) (es : List Event) (path : List Nat) : List (List Nat) :=
  match path.getLast?, es[path.length - 1]? with
  | some p, some e => (g.next p e).map fun q => path ++ [q]
  | _, _ => []

/-- The paths that a search takes from its agenda, one after another, until the agenda is
empty. The paths that go on from a path are put before all others, the least one first. -/
inductive Searches (g : Abstraction) (es : List Event) : List (List Nat) → List (List Nat) → Prop where
  | done : Searches g es [] []
  | take {path : List Nat} {agenda taken : List (List Nat)} :
      Searches g es (g.extensions es path ++ agenda) taken →
      Searches g es (path :: agenda) (path :: taken)

/-- A path on the agenda stands for all paths that are visited from its last block on. -/
theorem Searches.head {before : List Nat} {done rest : List Event} {agenda taken : List (List Nat)}
    (hlength : before.length = done.length)
    (htaken : g.Searches (done ++ rest) agenda taken) :
    g.Searches (done ++ rest) ((before ++ [p]) :: agenda)
      ((g.visitsFrom p rest).map (before ++ ·) ++ taken) := by
  induction rest generalizing before done p agenda taken with
  | nil =>
    have hnone : g.extensions (done ++ []) (before ++ [p]) = [] := by
      simp [extensions, hlength]
    refine .take ?_
    rw [hnone]
    exact htaken
  | cons e rest ih =>
    have hextensions : g.extensions (done ++ e :: rest) (before ++ [p]) =
        (g.next p e).map fun q => before ++ [p] ++ [q] := by
      simp [extensions, hlength]
    have hall : ∀ qs : List Nat, g.Searches (done ++ e :: rest)
        ((qs.map fun q => before ++ [p] ++ [q]) ++ agenda)
        ((qs.flatMap (g.visitsFrom · rest)).map (before ++ [p] ++ ·) ++ taken) := by
      intro qs
      induction qs with
      | nil => exact htaken
      | cons q qs ihqs =>
        have hdone : (before ++ [p]).length = (done ++ [e]).length := by simp [hlength]
        have hevents : done ++ e :: rest = done ++ [e] ++ rest := List.append_cons ..
        rw [hevents] at ihqs
        have hone := ih (p := q) hdone ihqs
        rw [← hevents] at hone
        rw [List.map_cons, List.cons_append, List.flatMap_cons, List.map_append,
          List.append_assoc _ _ taken]
        exact hone
    have hsuccessors := hall (g.next p e)
    rw [← hextensions] at hsuccessors
    rw [visitsFrom, List.map_cons, List.map_map, List.cons_append]
    refine .take ?_
    have hcomp : (before ++ ·) ∘ (p :: ·) = (before ++ [p] ++ ·) := by
      funext path
      simp
    rw [hcomp]
    exact hsuccessors

theorem searches_visits (g : Abstraction) (es : List Event) :
    g.Searches es (g.initialIds.map ([·])) (g.visits es) := by
  unfold visits
  induction g.initialIds with
  | nil => exact .done
  | cons p ids ih =>
    have hone : g.Searches ([] ++ es) (([] ++ [p]) :: ids.map ([·]))
        ((g.visitsFrom p es).map ([] ++ ·) ++ ids.flatMap fun q => g.visitsFrom q es) :=
      .head rfl ih
    simpa using hone

end ProtocolInference.Abstraction
