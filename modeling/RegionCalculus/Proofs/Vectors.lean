import RegionCalculus.Proofs.Growth
import RegionCalculus.Parikh

/-!
# Parikh vectors in closed form

For a grown tree whose labels are events, the table of Parikh vectors counts labels on root paths, and
a cycle vector is the difference of two such counts with one more for the label of the extra arc.

* `labelCount as e`: how often the label `e` occurs among the arcs `as`.
* `Tree.vector events t s`, `Tree.cycleVector events t a`: the closed forms.
* `weightOf events net e`: the net weight of the event with label `e`.
* `dot_labelCount`: the product of counts with net weights is the effect of the arcs.
-/

namespace RegionCalculus
set_option autoImplicit false

variable {ι : Type}

def labelCount (as : List (Arc ι)) (e : String) : Int := (as.map Arc.label).count e

@[simp] theorem labelCount_nil (e : String) : labelCount ([] : List (Arc ι)) e = 0 := rfl

theorem labelCount_append (as bs : List (Arc ι)) (e : String) :
    labelCount (as ++ bs) e = labelCount as e + labelCount bs e := by
  simp [labelCount]

theorem labelCount_cons (a : Arc ι) (as : List (Arc ι)) (e : String) :
    labelCount (a :: as) e = labelCount as e + if e = a.label then 1 else 0 := by
  by_cases h : e = a.label
  · subst h
    simp [labelCount]
  · simp [labelCount, h, List.count_cons_of_ne (Ne.symm h)]

theorem labelCount_singleton (a : Arc ι) (e : String) :
    labelCount [a] e = if e = a.label then 1 else 0 := by
  rw [labelCount_cons, labelCount_nil, Int.zero_add]

def weightOf (events : List String) (net : List Int) (e : String) : Int :=
  net.getD (events.idxOf e) 0

theorem idxOf?_of_mem {events : List String} {e : String} (he : e ∈ events) :
    events.idxOf? e = some (events.idxOf e) := by
  induction events with
  | nil => simp at he
  | cons x events ih =>
    by_cases hxe : x = e
    · subst hxe
      simp [List.idxOf?_cons]
    · have he' : e ∈ events := (List.mem_cons.1 he).resolve_left (Ne.symm hxe)
      simp [List.idxOf?_cons, hxe, ih he']

/-! ## Vectors that are functions of the event -/

section Functions

variable {events : List String} {f g : String → Int}

theorem dot_map_add (events : List String) (f g : String → Int) (net : List Int) :
    dot (events.map fun e => f e + g e) net = dot (events.map f) net + dot (events.map g) net := by
  induction events generalizing net with
  | nil => simp
  | cons e events ih =>
    cases net with
    | nil => simp
    | cons w net =>
      simp only [List.map_cons, dot_cons, ih]
      ring

theorem dot_map_sub (events : List String) (f g : String → Int) (net : List Int) :
    dot (events.map fun e => f e - g e) net = dot (events.map f) net - dot (events.map g) net := by
  induction events generalizing net with
  | nil => simp
  | cons e events ih =>
    cases net with
    | nil => simp
    | cons w net =>
      simp only [List.map_cons, dot_cons, ih]
      ring

theorem dot_map_zero (events : List String) (net : List Int) :
    dot (events.map fun _ => 0) net = 0 := by
  induction events generalizing net with
  | nil => simp
  | cons e events ih =>
    cases net with
    | nil => simp
    | cons w net => simp only [List.map_cons, dot_cons, ih, Int.zero_mul, Int.add_zero]

theorem dot_map_single {e : String} (hn : events.Nodup) (he : e ∈ events) (net : List Int) :
    dot (events.map fun x => if x = e then 1 else 0) net = weightOf events net e := by
  induction events generalizing net with
  | nil => simp at he
  | cons x events ih =>
    obtain ⟨hx, hn⟩ := List.nodup_cons.1 hn
    cases net with
    | nil => simp [weightOf]
    | cons w net =>
      by_cases hxe : x = e
      · subst hxe
        have hrest : events.map (fun y => if y = x then (1 : Int) else 0) =
            events.map fun _ => 0 :=
          List.map_congr_left fun y hy => if_neg (ne_of_mem_of_not_mem hy hx)
        rw [List.map_cons, dot_cons, hrest, dot_map_zero, if_pos rfl, weightOf,
          List.idxOf_cons_self, List.getD_cons_zero]
        omega
      · have he' : e ∈ events := (List.mem_cons.1 he).resolve_left (Ne.symm hxe)
        rw [List.map_cons, dot_cons, if_neg hxe, ih hn he', weightOf, weightOf,
          List.idxOf_cons_ne _ hxe, List.getD_cons_succ]
        omega

theorem countEvent_map {e : String} (hn : events.Nodup) (he : e ∈ events) :
    countEvent events e (events.map f) =
      some (events.map fun x => f x + if x = e then 1 else 0) := by
  induction events with
  | nil => simp at he
  | cons x events ih =>
    obtain ⟨hx, hn⟩ := List.nodup_cons.1 hn
    by_cases hxe : x = e
    · subst hxe
      have hrest : events.map (fun y => f y + if y = x then 1 else 0) = events.map f :=
        List.map_congr_left fun y hy => by rw [if_neg (ne_of_mem_of_not_mem hy hx), Int.add_zero]
      simp [countEvent, List.idxOf?_cons, hrest]
    · have he' : e ∈ events := (List.mem_cons.1 he).resolve_left (Ne.symm hxe)
      have hih := ih hn he'
      simp only [countEvent, Option.map_eq_some_iff] at hih ⊢
      obtain ⟨i, hi, hmodify⟩ := hih
      refine ⟨i + 1, ?_, ?_⟩
      · simp [List.idxOf?_cons, hxe, hi]
      · simp [hxe, hmodify]

theorem dot_labelCount {as : List (Arc ι)} (hn : events.Nodup)
    (hl : ∀ a ∈ as, a.label ∈ events) (net : List Int) :
    dot (events.map (labelCount as)) net = runEffect (weightOf events net) as := by
  induction as with
  | nil => exact dot_map_zero events net
  | cons a as ih =>
    have hcount : events.map (labelCount (a :: as)) =
        events.map fun e => labelCount as e + if e = a.label then 1 else 0 :=
      List.map_congr_left fun e _ => labelCount_cons a as e
    rw [hcount, dot_map_add, ih fun b hb => hl b (List.mem_cons_of_mem _ hb),
      dot_map_single hn (hl a List.mem_cons_self), runEffect_cons]
    omega

end Functions

/-! ## Tables -/

variable [DecidableEq ι]

theorem mem_of_lookup {β : Type} {table : List (ι × β)} {k : ι} {v : β}
    (h : table.lookup k = some v) : (k, v) ∈ table := by
  obtain ⟨before, after, hsplit, _⟩ := List.lookup_eq_some_iff.1 h
  simp [hsplit]

theorem lookup_eq_none_iff {β : Type} {table : List (ι × β)} {k : ι} :
    table.lookup k = none ↔ k ∉ table.map Prod.fst := by
  rw [List.lookup_eq_none_iff, List.mem_map]
  simp only [bne_iff_ne]
  exact ⟨fun h ⟨e, he, hk⟩ => h e he hk.symm, fun h e he hk => h ⟨e, he, hk.symm⟩⟩

theorem lookup_map_pair {β : Type} (l : List ι) (f : ι → β) (s : ι) :
    (l.map fun x => (x, f x)).lookup s = if s ∈ l then some (f s) else none := by
  induction l with
  | nil => rfl
  | cons x l ih =>
    by_cases h : s = x
    · subst h
      simp
    · have hne : (s == x) = false := by simpa using h
      simp [List.lookup_cons, hne, ih, h]

namespace Tree

/-- The number of times that each event occurs on the way from the root to `s`. -/
def vector (events : List String) (t : Tree ι) (s : ι) : List Int :=
  events.map (labelCount (t.rootPath s))

/-- The counts to the source of an arc and its label, less the counts to its target. -/
def cycleVector (events : List String) (t : Tree ι) (a : Arc ι) : List Int :=
  events.map fun e =>
    labelCount (t.rootPath a.source) e + (if e = a.label then 1 else 0) -
      labelCount (t.rootPath a.target) e

@[simp] theorem length_vector (events : List String) (t : Tree ι) (s : ι) :
    (t.vector events s).length = events.length := by
  simp [vector]

variable {events : List String} {t : Tree ι}

theorem parikhTable?_attach (events : List String) (t : Tree ι) (a : Arc ι) :
    (t.attach a).parikhTable? events =
      (t.parikhTable? events >>= fun table => extendTable events table a) := by
  simp [parikhTable?, List.foldlM_append]

theorem Grown.vector_root (ht : t.Grown) : t.vector events t.root = noEvents events.length := by
  rw [vector, ht.rootPath_root, noEvents, List.eq_replicate_iff]
  simp

theorem vector_attach_of_mem {a : Arc ι} {s : ι} (ha : a.target ∉ t.states) (hs : s ∈ t.states) :
    (t.attach a).vector events s = t.vector events s := by
  rw [vector, rootPath_attach, if_neg (ne_of_mem_of_not_mem hs ha).symm, vector]

theorem vector_attach_target (hn : events.Nodup) {a : Arc ι} (ha : a.label ∈ events) :
    countEvent events a.label (t.vector events a.source) =
      some ((t.attach a).vector events a.target) := by
  rw [vector, countEvent_map hn ha, vector, rootPath_attach, if_pos rfl]
  refine congrArg some (List.map_congr_left fun e _ => ?_)
  rw [labelCount_append, labelCount_singleton]

/-- The table of a grown tree whose labels are events: it is complete, and its entries count the
labels on root paths. -/
theorem Grown.parikhTable?_eq (ht : t.Grown) (hn : events.Nodup)
    (hl : ∀ a ∈ t.arcs, a.label ∈ events) :
    t.parikhTable? events = .ok (t.states.map fun s => (s, t.vector events s)) := by
  induction ht with
  | single root =>
    have hroot : (⟨root, []⟩ : Tree ι).vector events root = noEvents events.length :=
      (Grown.single root).vector_root
    simp [parikhTable?, states, hroot, pure, Except.pure]
  | @attach t a ht hs hnew ih =>
    have hold : t.states.map (fun s => (s, (t.attach a).vector events s)) =
        t.states.map fun s => (s, t.vector events s) :=
      List.map_congr_left fun s hs => by rw [vector_attach_of_mem hnew hs]
    have hlabel : a.label ∈ events := hl a (by simp)
    rw [parikhTable?_attach, ih fun b hb => hl b (by simp [hb]), states_attach, List.map_append,
      hold]
    simp only [bind, Except.bind, extendTable, lookup_map_pair, if_pos hs,
      vector_attach_target hn hlabel, List.map_cons, List.map_nil]

/-- The vector of an arc between tree states, with a label that is an event. -/
theorem cycleVector?_eq (hn : events.Nodup) {a : Arc ι} (hs : a.source ∈ t.states)
    (ht : a.target ∈ t.states) (hl : a.label ∈ events) :
    cycleVector? events (t.states.map fun s => (s, t.vector events s)) a =
      .ok (t.cycleVector events a) := by
  have hdiff : List.zipWith (· - ·) (t.vector events a.source) (t.vector events a.target) =
      events.map fun e => labelCount (t.rootPath a.source) e - labelCount (t.rootPath a.target) e := by
    rw [vector, vector, List.zipWith_map, List.zipWith_self]
  have hcycle : events.map (fun e => labelCount (t.rootPath a.source) e -
      labelCount (t.rootPath a.target) e + if e = a.label then 1 else 0) =
      t.cycleVector events a :=
    List.map_congr_left fun e _ => by omega
  simp only [cycleVector?, lookup_map_pair, if_pos hs, if_pos ht, hdiff, countEvent_map hn hl, hcycle]


theorem cycleVectors?_eq (hn : events.Nodup) {extra : List (Arc ι)}
    (h : ∀ a ∈ extra, a.source ∈ t.states ∧ a.target ∈ t.states ∧ a.label ∈ events) :
    cycleVectors? events (t.states.map fun s => (s, t.vector events s)) extra =
      .ok (extra.map fun a => (a, t.cycleVector events a)) := by
  induction extra with
  | nil => rfl
  | cons a extra ih =>
    obtain ⟨hs, ht, hl⟩ := h a List.mem_cons_self
    have hrest := ih fun b hb => h b (List.mem_cons_of_mem _ hb)
    simp only [cycleVectors?] at hrest ⊢
    rw [List.mapM_cons, hrest, cycleVector?_eq hn hs ht hl]
    rfl

/-! ## Potentials of trees -/

/-- The net effect of the way from the root. -/
def potential (events : List String) (net : List Int) (t : Tree ι) (s : ι) : Int :=
  dot (t.vector events s) net

theorem Grown.potential_root (ht : t.Grown) (net : List Int) :
    t.potential events net t.root = 0 := by
  rw [potential, vector, ht.rootPath_root]
  exact dot_map_zero events net

theorem Grown.potential_eq_runEffect (ht : t.Grown) (hn : events.Nodup)
    (hl : ∀ a ∈ t.arcs, a.label ∈ events) (net : List Int) {s : ι} (hs : s ∈ t.states) :
    t.potential events net s = runEffect (weightOf events net) (t.rootPath s) :=
  dot_labelCount hn (fun a ha => hl a (ht.rootPath_subset s hs a ha)) net

theorem Grown.potential_target (ht : t.Grown) (hn : events.Nodup)
    (hl : ∀ a ∈ t.arcs, a.label ∈ events) (net : List Int) {a : Arc ι} (ha : a ∈ t.arcs) :
    t.potential events net a.target =
      t.potential events net a.source + weightOf events net a.label := by
  rw [ht.potential_eq_runEffect hn hl net (target_mem_states ha),
    ht.potential_eq_runEffect hn hl net (ht.source_mem ha), ht.rootPath_target ha]
  simp

/-- The product of a cycle vector with net weights says by how much the potential misses the weight
of the extra arc. -/
theorem dot_cycleVector (hn : events.Nodup) {a : Arc ι} (hl : a.label ∈ events) (net : List Int) :
    dot (t.cycleVector events a) net =
      t.potential events net a.source + weightOf events net a.label -
        t.potential events net a.target := by
  rw [cycleVector, dot_map_sub, dot_map_add, dot_map_single hn hl]
  rfl

end Tree

end RegionCalculus
