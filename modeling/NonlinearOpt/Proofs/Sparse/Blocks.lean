import NonlinearOpt.Proofs.Partial
import NonlinearOpt.Sparse.Triplets
import Mathlib

/-!
Matrices stored block after block. Where the column pointers are the running totals of the lengths
of some lists, column `c` is the `c`-th list.
-/

namespace NonlinearOpt

theorem foldl_totals (counts : List Nat) :
    counts.foldl (fun (sums, last) c => (sums.push (last + c), last + c)) (#[0], 0) =
      (((List.range (counts.length + 1)).map fun k => (counts.take k).sum).toArray,
        counts.sum) := by
  induction counts using List.reverseRecOn with
  | nil => rfl
  | append_singleton counts c ih =>
    have hprefix : ∀ k ∈ List.range (counts.length + 1),
        ((counts ++ [c]).take k).sum = (counts.take k).sum := by
      intro k hk
      rw [List.take_append_of_le_length (by simpa [Nat.lt_succ_iff] using hk)]
    have hlast : (counts ++ [c]).take (counts.length + 1) = counts ++ [c] :=
      List.take_of_length_le (by simp)
    rw [List.foldl_append, ih, List.length_append, List.length_singleton,
      List.range_succ (n := counts.length + 1), List.map_append, List.map_congr_left hprefix]
    simp [hlast]

theorem cumulative_eq (counts : List Nat) :
    cumulative counts.toArray =
      ((List.range (counts.length + 1)).map fun k => (counts.take k).sum).toArray := by
  unfold cumulative
  rw [List.foldl_toArray, foldl_totals]

theorem getElem?_cumulative (counts : Array Nat) {k : Nat} (hk : k ≤ counts.size) :
    (cumulative counts)[k]? = some (counts.toList.take k).sum := by
  have h := cumulative_eq counts.toList
  rw [Array.toArray_toList] at h
  rw [h]
  simp [show k < counts.size + 1 by omega]

theorem getD_cumulative (counts : Array Nat) {k : Nat} (hk : k ≤ counts.size) :
    (cumulative counts).getD k 0 = (counts.toList.take k).sum := by
  rw [Array.getD_eq_getD_getElem?, getElem?_cumulative counts hk, Option.getD_some]

theorem size_cumulative (counts : Array Nat) : (cumulative counts).size = counts.size + 1 := by
  have hcumulative := cumulative_eq counts.toList
  rw [Array.toArray_toList] at hcumulative
  simp [hcumulative]

namespace Csc

theorem foldl_modify_eq (js : List Nat) (counts : Array Nat) (hjs : ∀ j ∈ js, j < counts.size) :
    js.foldl (fun counts j => counts.modify j (· + 1)) counts =
      (counts.toList.zipIdx.map fun (c, k) => c + js.count k).toArray := by
  induction js generalizing counts with
  | nil => simp
  | cons j js ih =>
    have hj : j < counts.size := hjs j (by simp)
    rw [List.foldl_cons, ih _ (by simpa using fun i hi => hjs i (by simp [hi]))]
    apply Array.ext_getElem?
    intro k
    by_cases hk : k < counts.size
    · by_cases hjk : j = k
      · subst hjk
        simp [hk, List.count_cons]
        omega
      · simp [hk, List.count_cons, hjk]
    · simp [hk]

theorem tally_eq {n : Nat} {js : List Nat} (hjs : ∀ j ∈ js, j < n) :
    tally n js = ((List.range n).map fun k => js.count k).toArray := by
  unfold tally
  rw [foldl_modify_eq js _ (by simpa using hjs)]
  apply Array.ext_getElem?
  intro k
  by_cases hk : k < n
  · simp [hk]
  · simp [hk]

section Sorting

variable {β : Type} {key : β → Nat}

theorem filter_append_filter {es : List β} (hsorted : es.Pairwise fun s t => key s ≤ key t)
    (m : Nat) : es = es.filter (key · < m) ++ es.filter (m ≤ key ·) := by
  induction es with
  | nil => rfl
  | cons e es ih =>
    rw [List.pairwise_cons] at hsorted
    by_cases he : key e < m
    · simp [he, Nat.not_le.mpr he, ← ih hsorted.2]
    · have hnone : es.filter (key · < m) = [] := by
        rw [List.filter_eq_nil_iff]
        intro t ht
        have := hsorted.1 t ht
        simp only [decide_eq_true_eq]
        omega
      have hall : es.filter (m ≤ key ·) = es := by
        rw [List.filter_eq_self]
        intro t ht
        have := hsorted.1 t ht
        simp only [decide_eq_true_eq]
        omega
      simp [he, Nat.not_lt.mp he, hnone, hall]

theorem eq_flatten_filter {n : Nat} {es : List β}
    (hsorted : es.Pairwise fun s t => key s ≤ key t) (hbound : ∀ e ∈ es, key e < n) :
    es = ((List.range n).map fun k => es.filter (key · = k)).flatten := by
  induction n generalizing es with
  | zero =>
    cases es with
    | nil => rfl
    | cons e es => exact absurd (hbound e (by simp)) (Nat.not_lt_zero _)
  | succ n ih =>
    have hlast : es.filter (n ≤ key ·) = es.filter (key · = n) := by
      apply List.filter_congr
      intro e he
      have := hbound e he
      simp only [decide_eq_decide]
      omega
    have hinit : ∀ k ∈ List.range n,
        (es.filter (key · < n)).filter (key · = k) = es.filter (key · = k) := by
      intro k hk
      rw [List.filter_filter]
      apply List.filter_congr
      intro e _
      have := List.mem_range.mp hk
      rw [Bool.eq_iff_iff]
      simp only [Bool.and_eq_true, decide_eq_true_eq]
      omega
    have hrec := ih (hsorted.filter (key · < n)) (by simp)
    rw [List.map_congr_left hinit] at hrec
    rw [List.range_succ, List.map_append, List.flatten_append, ← hrec, List.map_singleton,
      List.flatten_singleton, ← hlast]
    exact filter_append_filter hsorted n

end Sorting

section Columns

variable {α : Type}

theorem length_of_slice? {β : Type} {xs : Array β} {x y : Nat} {l : List β}
    (h : slice? xs x y = some l) : l.length = y - x := by
  unfold slice? at h
  split at h
  · next hxy =>
    cases h
    simp
    omega
  · cases h

theorem slice?_of_size {β γ : Type} {xs : Array β} {ys : Array γ} {x y : Nat} {l : List β}
    (h : slice? xs x y = some l) (hsize : ys.size = xs.size) : ∃ l', slice? ys x y = some l' := by
  unfold slice? at h ⊢
  split at h
  · next hxy => exact ⟨_, if_pos (hsize ▸ hxy)⟩
  · cases h

theorem column?_eq_some {a : Csc α} {j : Nat} {column : List (Nat × α)} :
    a.column? j = some column ↔
      ∃ x y rows values, a.span? j = some (x, y) ∧ slice? a.rowIndex x y = some rows ∧
        slice? a.values x y = some values ∧ column = rows.zip values := by
  constructor
  · intro h
    unfold column? at h
    obtain ⟨⟨x, y⟩, hspan, h⟩ := Option.bind_eq_some_iff.mp h
    obtain ⟨rows, hrows, h⟩ := Option.bind_eq_some_iff.mp h
    obtain ⟨values, hvalues, h⟩ := Option.bind_eq_some_iff.mp h
    cases h
    exact ⟨x, y, rows, values, hspan, hrows, hvalues, rfl⟩
  · rintro ⟨x, y, rows, values, hspan, hrows, hvalues, rfl⟩
    unfold column?
    simp only [hspan, hrows, hvalues, Option.bind_eq_bind, Option.bind_some, Option.pure_def]

theorem getElem?_of_slice? {β : Type} {xs : Array β} {x y : Nat} {l : List β}
    (h : slice? xs x y = some l) {k : Nat} (hk : k < y - x) : xs[x + k]? = l[k]? := by
  unfold slice? at h
  split at h
  · next hxy =>
    cases h
    simp [hk]
  · cases h

theorem entries?_of_column? {a : Csc α} {j : Nat} {column : List (Nat × α)}
    (h : a.column? j = some column) : a.entries? j = some column := by
  obtain ⟨x, y, rows, values, hspan, hrows, hvalues, rfl⟩ := column?_eq_some.mp h
  have hlength : (rows.zip values).length = y - x := by
    simp [length_of_slice? hrows, length_of_slice? hvalues]
  unfold entries?
  rw [hspan]
  apply mapM_eq_some_iff.mpr
  rw [List.forall₂_iff_get]
  refine ⟨by simp [hlength], ?_⟩
  intro k hk hk'
  have hlt : k < y - x := by simpa using hk
  have hkrows : k < rows.length := by rwa [length_of_slice? hrows]
  have hkvalues : k < values.length := by rwa [length_of_slice? hvalues]
  have hrow : rows[k]? = some rows[k] := List.getElem?_eq_getElem hkrows
  have hvalue : values[k]? = some values[k] := List.getElem?_eq_getElem hkvalues
  rw [← getElem?_of_slice? hrows hlt] at hrow
  rw [← getElem?_of_slice? hvalues hlt] at hvalue
  simp [hrow, hvalue]

theorem rowsOf?_of_column? {a : Csc α} {j : Nat} {column : List (Nat × α)}
    (h : a.column? j = some column) : a.rowsOf? j = some (column.map Prod.fst) := by
  obtain ⟨x, y, rows, values, hspan, hrows, hvalues, rfl⟩ := column?_eq_some.mp h
  have hlength : rows.length ≤ values.length := by
    rw [length_of_slice? hrows, length_of_slice? hvalues]
  unfold rowsOf?
  rw [List.map_fst_zip hlength]
  simp only [hspan, hrows, Option.bind_eq_bind, Option.bind_some]

theorem map_fst_of_entries? {a : Csc α} {j : Nat} {rows : List Nat} {column : List (Nat × α)}
    (hrows : a.rowsOf? j = some rows) (h : a.entries? j = some column) :
    column.map Prod.fst = rows := by
  unfold rowsOf? at hrows
  unfold entries? at h
  obtain ⟨⟨x, y⟩, hspan, hslice⟩ := Option.bind_eq_some_iff.mp hrows
  obtain ⟨span, hspan', h⟩ := Option.bind_eq_some_iff.mp h
  rw [hspan] at hspan'
  cases hspan'
  have hlength : column.length = y - x := by simpa using length_of_mapM h
  apply List.ext_getElem?
  intro k
  by_cases hk : k < y - x
  · have hget := getElem?_of_mapM h k
    have hrange : (List.range' x (y - x))[k]? = some (x + k) := by simp [hk]
    rw [hrange, Option.bind_some, List.getElem?_eq_getElem (hlength ▸ hk)] at hget
    obtain ⟨row, hrow, hget⟩ := Option.bind_eq_some_iff.mp hget.symm
    obtain ⟨value, -, hget⟩ := Option.bind_eq_some_iff.mp hget
    rw [List.getElem?_map, List.getElem?_eq_getElem (hlength ▸ hk), ← Option.some.inj hget,
      ← getElem?_of_slice? hslice hk, hrow]
    rfl
  · rw [List.getElem?_eq_none (by simp; omega),
      List.getElem?_eq_none (by rw [length_of_slice? hslice]; omega)]

theorem column?_revalue {a : Csc α} {j : Nat} {column : List (Nat × α)} {vs : Array α}
    (h : a.column? j = some column) (hsize : vs.size = a.values.size) :
    ∃ column', ({ a with values := vs }).column? j = some column' ∧
      column.map Prod.fst = column'.map Prod.fst := by
  have hrowsOf := rowsOf?_of_column? h
  obtain ⟨x, y, rows, values, hspan, hrows, hvalues, -⟩ := column?_eq_some.mp h
  obtain ⟨values', hvalues'⟩ := slice?_of_size hvalues hsize
  have hcolumn' : ({ a with values := vs }).column? j = some (rows.zip values') :=
    column?_eq_some.mpr ⟨x, y, rows, values', hspan, hrows, hvalues', rfl⟩
  have hrowsOf' : a.rowsOf? j = some ((rows.zip values').map Prod.fst) := by
    have h' := rowsOf?_of_column? hcolumn'
    exact h'
  rw [hrowsOf] at hrowsOf'
  exact ⟨rows.zip values', hcolumn', Option.some.inj hrowsOf'⟩

end Columns

section Storage

variable {α : Type}

theorem slice?_flatten {β : Type} (blocks : List (List β)) {c : Nat} (hc : c < blocks.length) :
    slice? blocks.flatten.toArray ((blocks.map List.length).take c).sum
      ((blocks.map List.length).take (c + 1)).sum = some blocks[c] := by
  have hle : ((blocks.map List.length).take c).sum ≤
      ((blocks.map List.length).take (c + 1)).sum := by
    rw [List.take_add_one, List.sum_append]
    exact Nat.le_add_right _ _
  have htotal : ((blocks.map List.length).take (c + 1)).sum ≤ blocks.flatten.length := by
    rw [List.length_flatten]
    exact (List.take_sublist _ _).sum_le_sum (by simp)
  unfold slice?
  rw [if_pos ⟨hle, by simpa using htotal⟩]
  have hblock := List.drop_take_succ_flatten_eq_getElem blocks c hc
  rw [← hblock]
  simp [List.drop_take]

theorem slice?_map_flatten {β γ : Type} (f : β → γ) (blocks : List (List β)) {c : Nat}
    (hc : c < blocks.length) :
    slice? (blocks.flatten.map f).toArray ((blocks.map List.length).take c).sum
      ((blocks.map List.length).take (c + 1)).sum = some (blocks[c].map f) := by
  have h := slice?_flatten (blocks.map (List.map f)) (c := c) (by simpa using hc)
  rw [← List.map_flatten, List.map_map] at h
  simpa only [Function.comp_def, List.length_map, List.getElem_map] using h

/-- A matrix that stores the given blocks one after the other. -/
structure Stores (a : Csc α) (blocks : List (List (Nat × α))) : Prop where
  colStart : a.colStart = cumulative (blocks.map List.length).toArray
  rowIndex : a.rowIndex = (blocks.flatten.map Prod.fst).toArray
  values : a.values = (blocks.flatten.map Prod.snd).toArray

namespace Stores

variable {a : Csc α} {blocks : List (List (Nat × α))}

theorem span? (h : Stores a blocks) {c : Nat} (hc : c < blocks.length) :
    a.span? c = some (((blocks.map List.length).take c).sum,
      ((blocks.map List.length).take (c + 1)).sum) := by
  unfold Csc.span?
  rw [h.colStart, getElem?_cumulative _ (by simp; omega), getElem?_cumulative _ (by simp; omega)]
  rfl

theorem rowsOf? (h : Stores a blocks) {c : Nat} (hc : c < blocks.length) :
    a.rowsOf? c = some (blocks[c].map Prod.fst) := by
  unfold Csc.rowsOf?
  rw [h.span? hc, h.rowIndex]
  exact slice?_map_flatten Prod.fst blocks hc

theorem column? (h : Stores a blocks) {c : Nat} (hc : c < blocks.length) :
    a.column? c = some blocks[c] := by
  unfold Csc.column?
  rw [h.span? hc, h.rowIndex, h.values]
  simp only [Option.bind_eq_bind, Option.bind_some, slice?_map_flatten _ blocks hc,
    Option.pure_def]
  have hzip := List.zip_unzip blocks[c]
  rw [List.unzip_eq_map] at hzip
  rw [hzip]

theorem entries? (h : Stores a blocks) {c : Nat} (hc : c < blocks.length) :
    a.entries? c = some blocks[c] :=
  entries?_of_column? (h.column? hc)

theorem mapM_range_eq {β : Type} {f : Nat → Option β} {xs : List β}
    (h : ∀ c (hc : c < xs.length), f c = some xs[c]) : (List.range xs.length).mapM f = some xs := by
  rw [mapM_eq_some_iff, List.forall₂_iff_get]
  refine ⟨by simp, ?_⟩
  intro c hc hc'
  simpa using h c hc'

theorem mapM_column? (h : Stores a blocks) :
    (List.range blocks.length).mapM a.column? = some blocks :=
  mapM_range_eq fun _ hc => h.column? hc

theorem mapM_rowsOf? (h : Stores a blocks) :
    (List.range blocks.length).mapM a.rowsOf? = some (blocks.map (List.map Prod.fst)) := by
  have hlength : blocks.length = (blocks.map (List.map Prod.fst)).length := by simp
  rw [hlength]
  apply mapM_range_eq
  intro c hc
  rw [h.rowsOf? (by simpa using hc), List.getElem_map]

theorem last_position (h : Stores a blocks) {c : Nat} (hc : c < blocks.length)
    {init : List (Nat × α)} {x : Nat × α} (hlast : blocks[c] = init ++ [x]) :
    a.colStart.getD (c + 1) 0 - 1 = (((blocks.take c).flatten ++ init).map Prod.snd).length := by
  have htake : (blocks.map List.length).take (c + 1) =
      (blocks.take c).map List.length ++ [(init ++ [x]).length] := by
    rw [List.take_add_one, List.getElem?_map, List.getElem?_eq_getElem hc, hlast, List.map_take]
    rfl
  rw [h.colStart, getD_cumulative _ (by simp; omega), htake]
  simp only [List.sum_append, List.sum_singleton, List.length_append, List.length_map,
    List.length_flatten, List.length_singleton]
  omega

theorem modify_last (h : Stores a blocks) {c : Nat} (hc : c < blocks.length)
    {init : List (Nat × α)} {x : Nat × α} (hlast : blocks[c] = init ++ [x]) (f : α → α) :
    Stores { a with values := a.values.modify (a.colStart.getD (c + 1) 0 - 1) f }
      (blocks.set c (init ++ [(x.1, f x.2)])) := by
  have hsplit : blocks = blocks.take c ++ (init ++ [x]) :: blocks.drop (c + 1) := by
    rw [← hlast, List.cons_getElem_drop_succ, List.take_append_drop]
  have hset : blocks.set c (init ++ [(x.1, f x.2)]) =
      blocks.take c ++ (init ++ [(x.1, f x.2)]) :: blocks.drop (c + 1) := by
    rw [List.set_eq_take_append_cons_drop, if_pos hc]
  have hlengths : (blocks.set c (init ++ [(x.1, f x.2)])).map List.length =
      blocks.map List.length := by
    conv_rhs => rw [hsplit]
    rw [hset]
    simp
  have hrows : (blocks.set c (init ++ [(x.1, f x.2)])).flatten.map Prod.fst =
      blocks.flatten.map Prod.fst := by
    conv_rhs => rw [hsplit]
    rw [hset]
    simp
  have hmodify : ∀ (l r : List α) (y : α), (l ++ y :: r).modify l.length f = l ++ f y :: r := by
    intro l r y
    rw [List.modify_eq_take_drop]
    simp
  constructor
  · rw [hlengths]
    exact h.colStart
  · rw [hrows]
    exact h.rowIndex
  · rw [h.last_position hc hlast, h.values]
    have hvalues : blocks.flatten.map Prod.snd =
        ((blocks.take c).flatten ++ init).map Prod.snd ++
          x.2 :: (blocks.drop (c + 1)).flatten.map Prod.snd := by
      conv_lhs => rw [hsplit]
      simp
    rw [hvalues, List.modify_toArray, hmodify, hset]
    simp

end Stores

theorem stores_of_sorted {β : Type} {es : List β} {key : β → Nat} (entry : β → Nat × α)
    {rows n : Nat}
    (hsorted : es.Pairwise fun s t => key s ≤ key t) (hbound : ∀ e ∈ es, key e < n) :
    Stores ⟨rows, n, cumulative (tally n (es.map key)), (es.map fun e => (entry e).1).toArray,
        (es.map fun e => (entry e).2).toArray⟩
      ((List.range n).map fun k => (es.filter (key · = k)).map entry) := by
  have hblocks : ((List.range n).map fun k => (es.filter (key · = k)).map entry).flatten =
      es.map entry := by
    conv_rhs => rw [eq_flatten_filter hsorted hbound]
    rw [List.map_flatten, List.map_map]
    rfl
  have hcounts : tally n (es.map key) =
      (((List.range n).map fun k =>
        (es.filter (key · = k)).map entry).map List.length).toArray := by
    rw [tally_eq (List.forall_mem_map.mpr hbound), List.map_map]
    congr 1
    apply List.map_congr_left
    intro k _
    rw [Function.comp_apply, List.length_map, List.count_eq_countP, List.countP_map,
      List.countP_eq_length_filter]
    rfl
  constructor
  · exact congrArg cumulative hcounts
  · rw [hblocks, List.map_map]
    rfl
  · rw [hblocks, List.map_map]
    rfl

end Storage

end Csc

end NonlinearOpt
