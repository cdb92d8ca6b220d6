import NonlinearOpt.Proofs.Timing.Timers

namespace NonlinearOpt

variable {τ : Type}

namespace Timer

def find? : List String → List (String × Timer τ) → Option (Timer τ)
  | [], _ => none
  | name :: path, ts =>
    (ts.lookup name).bind fun t => if path.isEmpty then some t else find? path t.children

/-- The stopwatch of the timer at the end of a path. -/
def watch? (path : List String) (ts : List (String × Timer τ)) : Option (Stopwatch τ) :=
  (find? path ts).map watch

inductive Kept (t : Timer τ) : List String → List (String × Timer τ) → Prop
  | here {name : String} {ts : List (String × Timer τ)} (mem : (name, t) ∈ ts) : Kept t [name] ts
  | deeper {name : String} {u : Timer τ} {path : List String} {ts : List (String × Timer τ)}
      (mem : (name, u) ∈ ts) (kept : Kept t path u.children) : Kept t (name :: path) ts

/-- No name is used twice among the given timers, nor among those below any of them. -/
inductive Distinct : List (String × Timer τ) → Prop
  | intro {ts : List (String × Timer τ)} (names : (ts.map Prod.fst).Nodup)
      (below : ∀ e ∈ ts, Distinct e.2.children) : Distinct ts

section Lookup

variable {name : String} {path : List String} {t : Timer τ} {ts ts' : List (String × Timer τ)}

theorem mem_of_lookup (h : ts.lookup name = some t) : (name, t) ∈ ts := by
  obtain ⟨before, after, rfl, -⟩ := List.lookup_eq_some_iff.mp h
  simp

theorem lookup_of_mem (hnames : (ts.map Prod.fst).Nodup) (h : (name, t) ∈ ts) :
    ts.lookup name = some t := by
  induction ts with
  | nil => cases h
  | cons e ts ih =>
    obtain ⟨hfirst, hrest⟩ := List.nodup_cons.mp hnames
    rcases List.mem_cons.mp h with rfl | hmem
    · simp
    · have hne : name ≠ e.1 := by
        rintro rfl
        exact hfirst (List.mem_map.mpr ⟨_, hmem, rfl⟩)
      rw [List.lookup_cons, beq_eq_false_iff_ne.mpr hne]
      exact ih hrest hmem

theorem watch?_cons (name : String) (path : List String) (ts : List (String × Timer τ)) :
    watch? (name :: path) ts =
      (ts.lookup name).bind fun t => if path.isEmpty then some t.watch
        else watch? path t.children := by
  rw [watch?, find?]
  cases ts.lookup name with
  | none => rfl
  | some t =>
    simp only [Option.bind_some]
    split
    · rfl
    · rfl

theorem watch?_congr (h : ts'.lookup name = ts.lookup name) (path : List String) :
    watch? (name :: path) ts' = watch? (name :: path) ts := by
  rw [watch?_cons, watch?_cons, h]

theorem kept_iff_find? (h : Distinct ts) : Kept t path ts ↔ find? path ts = some t := by
  induction path generalizing ts with
  | nil =>
    constructor
    · intro hkept
      cases hkept
    · intro hfind
      cases hfind
  | cons name path ih =>
    obtain ⟨hnames, hbelow⟩ := h
    constructor
    · rintro (hmem | ⟨hmem, hkept⟩)
      · simp [find?, lookup_of_mem hnames hmem]
      · have hne : path.isEmpty = false := by cases hkept <;> rfl
        rw [find?, lookup_of_mem hnames hmem, Option.bind_some, if_neg (by simp [hne])]
        exact (ih (hbelow _ hmem)).mp hkept
    · intro hfind
      obtain ⟨u, hlookup, hu⟩ := Option.bind_eq_some_iff.mp hfind
      have hmem := mem_of_lookup hlookup
      split at hu
      · rename_i hempty
        obtain rfl := List.isEmpty_iff.mp hempty
        obtain rfl : u = t := Option.some.inj hu
        exact .here hmem
      · exact .deeper hmem ((ih (hbelow _ hmem)).mpr hu)

end Lookup

section Update

variable [Zero τ] {name : String} {path : List String} {t : Timer τ}
  {ts ts' : List (String × Timer τ)}

theorem mem_names_upsert {other : String} {f : Timer τ → Timer τ} :
    other ∈ (upsert name f ts).map Prod.fst ↔ other ∈ ts.map Prod.fst ∨ other = name := by
  induction ts with
  | nil => simp [upsert]
  | cons e ts ih =>
    obtain ⟨first, t⟩ := e
    rw [upsert]
    split_ifs with h
    · subst h
      simp only [List.map_cons, List.mem_cons]
      tauto
    · simp only [List.map_cons, List.mem_cons, ih]
      tauto

theorem nodup_upsert {f : Timer τ → Timer τ} (h : (ts.map Prod.fst).Nodup) :
    ((upsert name f ts).map Prod.fst).Nodup := by
  induction ts with
  | nil => simp [upsert]
  | cons e ts ih =>
    obtain ⟨first, t⟩ := e
    obtain ⟨hfirst, hrest⟩ := List.nodup_cons.mp h
    rw [upsert]
    split_ifs with hname
    · exact List.nodup_cons.mpr ⟨hname ▸ hfirst, hrest⟩
    · refine List.nodup_cons.mpr ⟨fun hmem => ?_, ih hrest⟩
      rcases mem_names_upsert.mp hmem with hold | hnew
      · exact hfirst hold
      · exact hname hnew

theorem Distinct.upsert {f : Timer τ → Timer τ} (h : Distinct ts)
    (hf : ∀ t : Timer τ, Distinct t.children → Distinct (f t).children) :
    Distinct (upsert name f ts) := by
  obtain ⟨hnames, hbelow⟩ := h
  refine ⟨nodup_upsert hnames, fun e he => ?_⟩
  rcases mem_upsert he with hmem | rfl
  · exact hbelow e hmem
  · refine hf _ ?_
    cases hlookup : ts.lookup name with
    | none => exact ⟨List.nodup_nil, by simp [new]⟩
    | some t => exact hbelow _ (mem_of_lookup hlookup)

theorem Distinct.updateAt? {f : Timer τ → Timer τ} (h : Distinct ts)
    (hf : ∀ t : Timer τ, Distinct t.children → Distinct (f t).children)
    (hupdate : updateAt? f path ts = some ts') : Distinct ts' := by
  induction path generalizing ts ts' with
  | nil => cases hupdate
  | cons name path ih =>
    obtain ⟨t, hlookup, hupdate⟩ := Option.bind_eq_some_iff.mp hupdate
    split at hupdate
    · obtain rfl := Option.some.inj hupdate
      exact h.upsert hf
    · obtain ⟨below, hbelow, hupdate⟩ := Option.bind_eq_some_iff.mp hupdate
      obtain rfl := Option.some.inj hupdate
      have ht : Distinct t.children := by
        obtain ⟨-, hchildren⟩ := h
        exact hchildren _ (mem_of_lookup hlookup)
      exact h.upsert fun _ _ => ih ht hbelow

theorem watch?_upsert {g : Timer τ → Timer τ} {u : Timer τ} (h : ts.lookup name = some u)
    (first : String) (rest : List String) :
    watch? (first :: rest) (upsert name g ts) =
      if first = name then (if rest.isEmpty then some (g u).watch else watch? rest (g u).children)
      else watch? (first :: rest) ts := by
  by_cases hfirst : first = name
  · subst hfirst
    rw [if_pos rfl, watch?_cons, lookup_upsert, h]
    rfl
  · rw [if_neg hfirst]
    exact watch?_congr (lookup_upsert_of_ne hfirst) rest

theorem updateAt?_mapWatch (f : Stopwatch τ → Stopwatch τ) (h : find? path ts = some t) :
    ∃ ts', updateAt? (mapWatch f) path ts = some ts' ∧
      ∀ other, watch? other ts' =
        if other = path then some (f t.watch) else watch? other ts := by
  induction path generalizing ts with
  | nil => cases h
  | cons name path ih =>
    obtain ⟨u, hlookup, hu⟩ := Option.bind_eq_some_iff.mp h
    split at hu
    · rename_i hempty
      obtain rfl := List.isEmpty_iff.mp hempty
      obtain rfl : u = t := Option.some.inj hu
      refine ⟨upsert name (mapWatch f) ts, by simp [updateAt?, hlookup], fun other => ?_⟩
      obtain ⟨w, below⟩ := u
      cases other with
      | nil => simp [watch?, find?]
      | cons first rest =>
        rw [watch?_upsert hlookup]
        by_cases hfirst : first = name
        · subst hfirst
          rw [watch?_cons, hlookup]
          cases rest with
          | nil => simp [mapWatch]
          | cons next rest => simp [mapWatch]
        · simp [hfirst]
    · rename_i hne
      obtain ⟨below, hupdate, hbelow⟩ := ih hu
      refine ⟨upsert name (fun t => node t.watch below) ts, ?_, fun other => ?_⟩
      · simp [updateAt?, hlookup, hupdate, hne]
      cases other with
      | nil => simp [watch?, find?]
      | cons first rest =>
        rw [watch?_upsert hlookup]
        by_cases hfirst : first = name
        · subst hfirst
          rw [watch?_cons, hlookup]
          simp only [if_true, Option.bind_some, watch_node, children_node, hbelow]
          cases rest with
          | nil =>
            have hpath : path ≠ [] := by simpa using hne
            simp [Ne.symm hpath]
          | cons next rest => simp
        · simp [hfirst]

end Update

section Pause

variable [Add τ] [Sub τ] {ts : List (String × Timer τ)}

theorem children_suspend (now : τ) (t : Timer τ) :
    (t.suspend now).children =
      if t.watch.isRunning then suspendAll now t.children else t.children := by
  obtain ⟨w, ts⟩ := t
  rw [suspend]
  split <;> simp_all

omit [Add τ] [Sub τ] in
theorem children_resume (now : τ) (t : Timer τ) :
    (t.resume now).children =
      if t.watch.isPaused then resumeAll now t.children else t.children := by
  obtain ⟨w, ts⟩ := t
  rw [resume]
  split <;> simp_all

omit [Add τ] [Sub τ] in
theorem Distinct.map {all : List (String × Timer τ) → List (String × Timer τ)}
    {f : Timer τ → Timer τ} (hall : ∀ ts, all ts = ts.map fun e => (e.1, f e.2))
    (hf : ∀ t, (f t).children = all t.children ∨ (f t).children = t.children) (h : Distinct ts) :
    Distinct (all ts) := by
  induction h with
  | @intro ts names below ih =>
    rw [hall]
    refine ⟨?_, fun e he => ?_⟩
    · rwa [List.map_map]
    · obtain ⟨old, hold, rfl⟩ := List.mem_map.mp he
      rcases hf old.2 with hchanged | hsame
      · rw [hchanged]
        exact ih old hold
      · rw [hsame]
        exact below old hold

theorem Distinct.suspendAll (h : Distinct ts) (now : τ) : Distinct (suspendAll now ts) :=
  h.map (suspendAll_eq now) fun t => by
    rw [children_suspend]
    split
    · exact .inl rfl
    · exact .inr rfl

omit [Add τ] [Sub τ] in
theorem Distinct.resumeAll (h : Distinct ts) (now : τ) : Distinct (resumeAll now ts) :=
  h.map (resumeAll_eq now) fun t => by
    rw [children_resume]
    split
    · exact .inl rfl
    · exact .inr rfl

end Pause

end Timer

end NonlinearOpt
