import CodeAtlas.Proofs.Disk.Reads
import CodeAtlas.Proofs.Scan.Exact
import CodeAtlas.Proofs.Scan.Run
/-
  A scan lists no folder twice, whatever links there are.

  Links may lead nowhere, in a circle, or to one folder from many sides. A scan
  marks the plain names of the folders that it lists, and plain names tell
  folders apart as long as they can be read (`Opens.realPath_of_legible`). So a
  scan lists every folder at most once and finds every entry at most once
  (`listsOnce_folder`). Where a link is spelled by a path that is too long to
  be asked about, it is taken for a plain name, and a scan goes round in a
  circle without noticing (`loop_below_longPath`).
-/

namespace CodeAtlas.Scan

open CodeAtlas.Disk

variable {d : Disk} {dir p : Path} {excluded : List String} {events : List Event} {s : State}

/-! ## The whole scan -/

/-- The paths do not open one place, if both can be read. -/
def Apart (d : Disk) (p q : Path) : Prop :=
  Legible d p → Legible d q → ∀ k, d.locate p = .ok k → d.locate q ≠ .ok k

theorem apart_of_realPath_ne (hd : Sound d) {q : Path} (hp : ∀ s ∈ p.parts, s ≠ "")
    (hq : ∀ s ∈ q.parts, s ≠ "") (hne : d.realPath p ≠ d.realPath q) : Apart d p q := by
  intro hlegible hlegible' k hk hk'
  apply hne
  rw [Opens.realPath_of_legible ⟨hp, hk⟩ hd hlegible,
    Opens.realPath_of_legible ⟨hq, hk'⟩ hd hlegible']

/-- What a way leads to from a folder is shown, from that folder, as the way. -/
theorem relativeTo_join {way : List String} (cwd dir : Path) (hway : ∀ s ∈ way, IsStep s)
    (hne : way ≠ []) : Path.relativeTo cwd (dir.join ⟨"", way⟩) dir = "/".intercalate way := by
  have hlexical : Path.lexical cwd (dir.join ⟨"", way⟩) = Path.lexical cwd dir ++ way := by
    rw [Path.lexical_join, Path.foldl_stepLexical hway]
  obtain ⟨first, more, rfl⟩ := List.exists_cons_of_ne_nil hne
  simp only [Path.relativeTo, hlexical, Path.afterCommon_append, List.map_nil, List.nil_append]

/-- A source file in a folder below `dir`, to which no excluded name leads. -/
structure SourceBelow (d : Disk) (dir : Path) (excluded : List String) (f : Path × String) :
    Prop where
  file : ∃ c, d.find (f.1.child f.2) = .ok (some (.file c))
  source : Language.isSource (f.1.child f.2)
  way : ∃ way, f.1 = dir.join ⟨"", way⟩ ∧ ∀ s ∈ way, s ∉ excluded
  /-- As it is shown from `dir`, the file leads to itself from there. -/
  leads : dir.join (.ofString (shown d dir f)) = f.1.child f.2

/-- What a scan of a folder does: it lists no folder twice and finds no entry
twice, and what it finds are source files below the folder. -/
structure ListsOnce (d : Disk) (dir base : Path) (excluded : List String) (events : List Event)
    (s : State) : Prop where
  run : Run d excluded (depthLimit + 1) (.folder dir) [] events s.visited
  files : s.files = (foundIn events).map (shown d base)
  folders : ∀ p ∈ listedIn events, ∃ k, d.locate p = .ok k ∧ d.entry? k = some .folder
  once : (listedIn events).Pairwise (Apart d)
  entries : (foundIn events).Pairwise fun f g => f.2 = g.2 → Apart d f.1 g.1
  sources : ∀ f ∈ foundIn events, f.1 ∈ listedIn events ∧ SourceBelow d dir excluded f

theorem Run.listsOnce (h : Run d excluded (depthLimit + 1) (.folder dir) [] events s.visited)
    (hd : Sound d) (hdir : ∀ t ∈ dir.parts, t ≠ "") {base : Path}
    (hfiles : s.files = (foundIn events).map (shown d base)) :
    ListsOnce d dir base excluded events s := by
  have hway := h.way hd trivial
  have hparent : ∀ f ∈ foundIn events, f.1 ∈ listedIn events := fun f hf =>
    (h.parent f hf).resolve_right fun ⟨_, htask, _⟩ => by cases htask
  have hparts : ∀ p ∈ listedIn events, ∀ t ∈ p.parts, t ≠ "" := by
    intro p hp
    obtain ⟨way, rfl, hnames⟩ := hway p hp
    rw [Path.join_relative]
    exact List.forall_mem_append.mpr ⟨hdir, fun t ht => (hnames t ht).1.ne_empty⟩
  refine ⟨h, hfiles, h.folder_of_listed, ?_, ?_, fun f hf => ⟨hparent f hf, ?_⟩⟩
  · refine h.listed_apart.imp_of_mem fun hp hq hne => ?_
    exact apart_of_realPath_ne hd (hparts _ hp) (hparts _ hq) hne
  · refine (h.found_apart hd trivial).imp_of_mem fun hf hg hne hname => ?_
    exact apart_of_realPath_ne hd (hparts _ (hparent _ hf)) (hparts _ (hparent _ hg)) (hne hname)
  · -- the way to the folder and the name make up the text that is shown
    obtain ⟨hname, hfile, hsource⟩ := h.source_of_found hd trivial f hf
    obtain ⟨way, hf, hnames⟩ := hway f.1 (hparent f hf)
    have hall : ∀ t ∈ way ++ [f.2], IsName t :=
      List.forall_mem_append.mpr ⟨fun t ht => (hnames t ht).1, by simpa using hname⟩
    have hchild : f.1.child f.2 = dir.join ⟨"", way ++ [f.2]⟩ := by
      rw [hf, Task.dir, Path.join_relative, Path.join_relative, Path.child, List.append_assoc]
    refine ⟨hfile, hsource, ⟨way, hf, fun t ht => (hnames t ht).2⟩, ?_⟩
    rw [shown, hchild, relativeTo_join _ _ (fun t ht => (hall t ht).isStep) (by simp),
      Path.ofString_intercalate fun t ht => (hall t ht).toIsComponent]

/-- A scan lists every folder at most once and finds every entry at most once,
unless a link on the way cannot be asked about. It fails only for a folder
that itself cannot be asked about. -/
theorem listsOnce_folder (d : Disk) (hd : Sound d) (dir : String) (base : Path)
    (excluded : List String) :
    (∃ t, folder d (.ofString dir) base excluded = .error t ∧
      (d.find (.ofString dir) = .error t ∨ ¬ Legible d (.ofString dir))) ∨
    ∃ s events, folder d (.ofString dir) base excluded = .ok s ∧
      ListsOnce d (.ofString dir) base excluded events s := by
  have hparts : ∀ t ∈ (Path.ofString dir).parts, t ≠ "" := fun t ht =>
    (Path.isComponent_of_mem_components ht).ne_empty
  cases hscan : folder d (.ofString dir) base excluded with
  | ok s =>
    obtain ⟨events, hrun, hfiles⟩ := exists_run_below hscan
    exact Or.inr ⟨s, events, rfl, hrun.listsOnce hd hparts hfiles⟩
  | error t =>
    -- a path that can be read and that opens something has a plain name
    refine Or.inl ⟨t, rfl, ?_⟩
    refine (below_eq_error hscan).imp id fun ⟨hthere, hreal⟩ hlegible => ?_
    obtain ⟨e, hfind⟩ := pathExists_eq_true.mp hthere
    obtain ⟨k, hk, -⟩ := find_eq_some.mp hfind
    rw [Opens.realPath_of_legible ⟨hparts, hk⟩ hd hlegible] at hreal
    cases hreal

/-- A folder with a link to itself, a link to nothing, two links to one folder, a
folder that is excluded, and one that is locked. -/
def ring : Disk :=
  ⟨["w"], ⟨[(["w"], .folder), (["w", "p"], .folder), (["w", "p", "a.js"], .file (.text "")),
    (["w", "p", "self"], .link "."), (["w", "p", "lost"], .link "nowhere"),
    (["w", "p", "sub"], .folder), (["w", "p", "sub", "b.ts"], .file (.text "")),
    (["w", "p", "twin"], .link "../p/sub"), (["w", "p", "skip"], .folder),
    (["w", "p", "skip", "c.js"], .file (.text "")), (["w", "p", "vault"], .folder),
    (["w", "p", "vault", "d.js"], .file (.text ""))]⟩,
    { closed := [["w", "p", "vault"]], hidden := [["w", "p", "vault"]] }⟩

theorem listsOnce_folder_ring :
    (Sound ring ∧ ring.locate (.ofString "/w/p/self/twin") = .ok ["w", "p", "sub"] ∧
      ∀ p k, Opens ring p k → p.isAbsolute → (ring.entry? k).isSome → Legible ring p) ∧
    ∃ s events, folder ring (.ofString "/w/p") (.ofString "/w/p") ["skip"] = .ok s ∧
      ListsOnce ring (.ofString "/w/p") (.ofString "/w/p") ["skip"] events s := by
  have hd : Sound ring := by decide +kernel
  have hshort : ∀ j target, ring.entry? j = some (.link target) →
      (Path.ofPlace j).toString.utf8ByteSize ≤ pathLimit :=
    size_le_of_link (by decide +kernel)
  have hlegible : ∀ p k, Opens ring p k → p.isAbsolute → (ring.entry? k).isSome →
      Legible ring p := fun p k h habs hk => h.legible hd hk habs hshort
  have hfolder : ring.locate (.ofString "/w/p") = .ok ["w", "p"] := by decide +kernel
  refine ⟨⟨hd, by decide +kernel, hlegible⟩, ?_⟩
  refine (listsOnce_folder ring hd "/w/p" (.ofString "/w/p") ["skip"]).resolve_left ?_
  rintro ⟨t, -, herror | hno⟩
  · rw [find_eq_some.mpr ⟨_, hfolder, (by decide +kernel : ring.entry? ["w", "p"] = some .folder)⟩]
      at herror
    cases herror
  · exact hno (hlegible _ _ (opens_ofString hfolder) (by decide) (by decide +kernel))

/-! ## A loop that is not noticed -/

/-- A long name. -/
def longWord (c : Char) : String := String.ofList (List.replicate 250 c)

/-- Folders below one another, all of one long name. -/
def shaft (n : Nat) : Place := List.replicate n (longWord 'd')

/-- A folder with a path that is too long for its entries. -/
def cellar : Place := shaft 15 ++ [longWord 'e', longWord 'e']

/-- The way down the shaft. -/
def ladder : String := "/".intercalate (shaft 15)

/-- A short way down a deep shaft, and at its end a link back to its own
folder. -/
def pit : Disk :=
  ⟨[], ⟨(List.range 15).map (fun i => (shaft (i + 1), .folder))
    ++ [(["n"], .link ladder), (shaft 15 ++ [longWord 'e'], .folder),
      (cellar, .folder), (cellar ++ ["x.js"], .file (.text "")), (cellar ++ ["loop"], .link ".")]⟩,
    {}⟩

theorem size_longWord_d : (longWord 'd').utf8ByteSize = 250 := by decide +kernel

theorem size_longWord_e : (longWord 'e').utf8ByteSize = 250 := by decide +kernel

theorem isName_longWord {c : Char} (hsize : (longWord c).utf8ByteSize = 250) (hslash : c ≠ '/')
    (hnull : c ≠ '\x00') : IsName (longWord c) := by
  have hne : ∀ s : String, s.utf8ByteSize < 250 → longWord c ≠ s := by
    rintro s hs rfl
    omega
  have hchars : ∀ x ∈ (longWord c).toList, x = c := by
    intro x hx
    rw [longWord, String.toList_ofList] at hx
    exact List.eq_of_mem_replicate hx
  refine ⟨⟨hne _ (by decide), hne _ (by decide), fun h => hslash (hchars _ h).symm⟩,
    hne _ (by decide), fun h => hnull (hchars _ h).symm, ?_⟩
  rw [hsize]
  decide

theorem isName_longWord_d : IsName (longWord 'd') :=
  isName_longWord size_longWord_d (by decide) (by decide)

theorem isName_longWord_e : IsName (longWord 'e') :=
  isName_longWord size_longWord_e (by decide) (by decide)

theorem length_shaft (n : Nat) : (shaft n).length = n := List.length_replicate

theorem length_cellar : cellar.length = 17 := by simp [cellar, length_shaft]

theorem mem_keys_pit {k : Place} : k ∈ pit.entries.keys ↔
    (∃ i < 15, k = shaft (i + 1)) ∨ k = ["n"] ∨ k = shaft 15 ++ [longWord 'e'] ∨ k = cellar ∨
      k = cellar ++ ["x.js"] ∨ k = cellar ++ ["loop"] := by
  simp [pit, Table.keys, eq_comm]

theorem nodup_keys_pit : pit.entries.keys.Nodup := by
  have hlength : ∀ {j k : Place}, j.length ≠ k.length → j ≠ k := fun h heq => h (heq ▸ rfl)
  have hkeys : pit.entries.keys = (List.range 15).map (fun i => shaft (i + 1)) ++
      [["n"], shaft 15 ++ [longWord 'e'], cellar, cellar ++ ["x.js"], cellar ++ ["loop"]] := by
    simp [pit, Table.keys]
  rw [hkeys, List.nodup_append]
  refine ⟨?_, ?_, ?_⟩
  · refine List.Nodup.map_on (fun i _ j _ hij => ?_) List.nodup_range
    simpa [length_shaft] using congrArg List.length hij
  · simp only [List.nodup_cons, List.mem_cons, List.not_mem_nil, or_false, not_or, List.nodup_nil,
      not_false_eq_true, and_true]
    have hnames : cellar ++ ["x.js"] ≠ cellar ++ ["loop"] := by simp
    refine ⟨⟨?_, ?_, ?_, ?_⟩, ⟨?_, ?_, ?_⟩, ⟨?_, ?_⟩, hnames⟩ <;> apply hlength <;>
      simp [length_shaft, length_cellar]
  · intro k hk j hj
    obtain ⟨i, hi, rfl⟩ := List.mem_map.mp hk
    rw [List.mem_range] at hi
    simp only [List.mem_cons, List.not_mem_nil, or_false] at hj
    rcases hj with rfl | rfl | rfl | rfl | rfl
    · intro heq
      have hfirst : longWord 'd' = "n" := List.eq_of_mem_singleton (heq ▸ List.mem_cons_self)
      have hsize := size_longWord_d
      rw [hfirst] at hsize
      exact absurd hsize (by decide)
    all_goals
      apply hlength
      simp [length_shaft, length_cellar]
      try omega

theorem isName_of_mem_pit {k : Place} (hk : k ∈ pit.entries.keys) : ∀ t ∈ k, IsName t := by
  have hshaft : ∀ n, ∀ t ∈ shaft n, IsName t := fun n t ht =>
    List.eq_of_mem_replicate ht ▸ isName_longWord_d
  have hcellar : ∀ t ∈ cellar, IsName t :=
    List.forall_mem_append.mpr ⟨hshaft 15, by simpa using isName_longWord_e⟩
  rcases mem_keys_pit.mp hk with ⟨i, -, rfl⟩ | rfl | rfl | rfl | rfl | rfl
  · exact hshaft (i + 1)
  · simpa using (by decide : IsName "n")
  · exact List.forall_mem_append.mpr ⟨hshaft 15, by simpa using isName_longWord_e⟩
  · exact hcellar
  · exact List.forall_mem_append.mpr ⟨hcellar, by simpa using (by decide : IsName "x.js")⟩
  · exact List.forall_mem_append.mpr ⟨hcellar, by simpa using (by decide : IsName "loop")⟩

theorem entry?_pit {k : Place} {e : Entry} (hk : (k, e) ∈ pit.entries.entries) (hne : k ≠ []) :
    pit.entry? k = some e := by
  rw [entry?_of_ne hne]
  exact Table.get?_of_mem_entries nodup_keys_pit hk

theorem shaft_pit {n : Nat} (hn : n ≤ 15) : pit.entry? (shaft n) = some .folder := by
  cases n with
  | zero => rfl
  | succ i =>
    refine entry?_pit ?_ (by simp [shaft, List.replicate_succ])
    simp only [pit, List.mem_append, List.mem_map, List.mem_range]
    exact Or.inl ⟨i, hn, rfl⟩

theorem ladder_pit : pit.entry? ["n"] = some (.link ladder) :=
  entry?_pit (by simp [pit]) (by simp)

theorem shelf_pit : pit.entry? (shaft 15 ++ [longWord 'e']) = some .folder :=
  entry?_pit (by simp [pit]) (by simp)

theorem cellar_pit : pit.entry? cellar = some .folder :=
  entry?_pit (by simp [pit]) (by simp [cellar])

theorem file_pit : pit.entry? (cellar ++ ["x.js"]) = some (.file (.text "")) :=
  entry?_pit (by simp [pit]) (by simp)

theorem loop_pit : pit.entry? (cellar ++ ["loop"]) = some (.link ".") :=
  entry?_pit (by simp [pit]) (by simp)

theorem sound_pit : Sound pit := by
  refine ⟨nodup_keys_pit, fun k hk => isName_of_mem_pit hk, fun k hk => ?_, by simp [pit],
    rfl⟩
  have hcellar : cellar = (shaft 15 ++ [longWord 'e']) ++ [longWord 'e'] := by simp [cellar]
  rcases mem_keys_pit.mp hk with ⟨i, hi, rfl⟩ | rfl | rfl | rfl | rfl | rfl
  · have hup : (shaft (i + 1)).dropLast = shaft i := by simp [shaft]
    rw [hup]
    exact shaft_pit (by omega)
  · rfl
  · rw [List.dropLast_concat]
    exact shaft_pit (by omega)
  · rw [hcellar, List.dropLast_concat]
    exact shelf_pit
  · rw [List.dropLast_concat]
    exact cellar_pit
  · rw [List.dropLast_concat]
    exact cellar_pit

/-! ### Walks -/

/-- The way to the cellar by the link at the top, and round in the loop so many
times. -/
def descent (rounds : Nat) : Path :=
  ⟨"", ["n", longWord 'e', longWord 'e'] ++ List.replicate rounds "loop"⟩

theorem descent_child (rounds : Nat) : (descent rounds).child "loop" = descent (rounds + 1) := by
  simp [descent, Path.child, List.replicate_succ']

theorem isName_of_mem_cellar {t : String} (ht : t ∈ cellar) : IsName t :=
  sound_pit.isName (by rw [cellar_pit]; rfl) ht

theorem linkParts_ladder : linkParts ladder = shaft 15 := by
  refine Path.split_intercalate (by simp [shaft]) fun t ht => ?_
  exact (isName_of_mem_cellar (List.mem_append_left _ ht)).no_slash

theorem head_ladder : ¬ ladder.toList.head? = some '/' := by
  have hcons : shaft 15 = longWord 'd' :: shaft 14 := rfl
  have hhead : ladder.toList.head? = some 'd' := by
    rw [ladder, hcons, String.intercalate_cons_of_ne_nil (by simp [shaft]), String.toList_append,
      String.toList_append, longWord, String.toList_ofList]
    rfl
  rw [hhead]
  decide

theorem walk_shaft {rest : List String} {k : Place} {m : Nat}
    (h : Walk pit false k m (shaft 15) rest) (n : Nat) (i : Nat) (hn : i + n = 15) :
    Walk pit false k m (shaft i) (shaft n ++ rest) := by
  induction n generalizing i with
  | zero =>
    have hi : i = 15 := hn
    subst hi
    exact h
  | succ n ih =>
    have hdeeper : shaft i ++ [longWord 'd'] = shaft (i + 1) := by
      simp [shaft, List.replicate_succ']
    refine .down rfl (isName_longWord_d.canStep _) ?_ ?_
    · rw [hdeeper]
      exact shaft_pit (by omega)
    · rw [hdeeper]
      exact ih (i + 1) (by omega)

theorem walk_rounds {rest : List String} {k : Place} {m : Nat}
    (h : Walk pit false k m cellar rest) (rounds : Nat) :
    Walk pit false k (m + rounds) cellar (List.replicate rounds "loop" ++ rest) := by
  induction rounds with
  | zero => exact h
  | succ rounds ih =>
    refine .link rfl (IsName.canStep (by decide) _) loop_pit ?_
    have hstart : linkStart cellar "." = cellar := if_neg (by decide)
    have hparts : linkParts "." = ["."] := by decide
    have hsteps : ∀ more, linkSteps "." more = "." :: more := by simp [linkSteps, hparts]
    rw [hstart, hsteps]
    exact .stay (Or.inr ⟨rfl, rfl⟩) ih

/-- A walk from the cellar can be started at the top. -/
theorem walk_descent {rest : List String} {k : Place} {m : Nat}
    (h : Walk pit false k m cellar rest) (rounds : Nat) :
    Walk pit false k (m + rounds + 1) [] ((descent rounds).parts ++ rest) := by
  have hsteps : ∀ {more}, more ≠ [] →
      linkSteps ladder more = shaft 15 ++ more := by
    intro more hmore
    rw [linkSteps_of_ne_nil _ hmore, linkParts_ladder, List.filter_eq_self.mpr]
    intro t ht
    simpa using (isName_of_mem_cellar (List.mem_append_left _ ht)).ne_empty
  have hstart : linkStart [] ladder = shaft 0 := if_neg head_ladder
  refine .link rfl (IsName.canStep (by decide) _) ladder_pit ?_
  rw [hsteps (by simp), hstart]
  refine walk_shaft ?_ 15 0 rfl
  have hcellar : shaft 15 ++ [longWord 'e'] ++ [longWord 'e'] = cellar := by simp [cellar]
  refine .down rfl (isName_longWord_e.canStep _) shelf_pit ?_
  refine .down rfl (isName_longWord_e.canStep _) (hcellar ▸ cellar_pit) ?_
  rw [hcellar]
  exact walk_rounds h rounds

theorem isName_of_mem_descent {rounds : Nat} : ∀ t ∈ (descent rounds).parts, IsName t := by
  refine List.forall_mem_append.mpr ⟨?_, fun t ht => ?_⟩
  · simpa using ⟨(by decide : IsName "n"), isName_longWord_e⟩
  · rw [List.eq_of_mem_replicate ht]
    decide

theorem sum_descent (rounds : Nat) :
    ((descent rounds).parts.map fun t => t.utf8ByteSize + 1).sum = 504 + 5 * rounds := by
  have hn : "n".utf8ByteSize = 1 := by decide
  have hloop : "loop".utf8ByteSize = 4 := by decide
  have hrounds : ((List.replicate rounds "loop").map fun t => t.utf8ByteSize + 1).sum
      = 5 * rounds := by
    induction rounds with
    | zero => rfl
    | succ rounds ih =>
      rw [List.replicate_succ, List.map_cons, List.sum_cons, ih, hloop]
      omega
  simp only [descent, List.cons_append, List.nil_append, List.map_cons, List.sum_cons, hrounds,
    size_longWord_e, hn]
  omega

/-- What is reached from the cellar is reached through the link at the top,
after some rounds. -/
theorem locate_descent {rounds : Nat} {way k : Place} (h : Walk pit false k 0 cellar way)
    (hnames : ∀ t ∈ way, IsName t) (hrounds : rounds < linkLimit)
    (hsize : 504 + 5 * rounds + (way.map fun t => t.utf8ByteSize + 1).sum ≤ pathLimit + 1) :
    pit.locate ((descent rounds).join ⟨"", way⟩) = .ok k := by
  rw [Path.join_relative]
  refine reach_eq_ok.mpr ⟨?_, (walk_descent h rounds).transfer (.refl pit k) id (by omega)⟩
  have hall : ∀ t ∈ (descent rounds).parts ++ way, IsName t :=
    List.forall_mem_append.mpr ⟨isName_of_mem_descent, hnames⟩
  have hcheck := checkPath_relative (by simp [descent]) hall
  rw [List.map_append, List.sum_append, sum_descent, if_neg (Nat.not_lt.mpr hsize)] at hcheck
  exact hcheck

/-! ### Plain names -/

theorem placeOf_relative {k : Place} (hnames : ∀ t ∈ k, IsName t) : pit.placeOf ⟨"", k⟩ = k := by
  rw [placeOf, lexical_eq_foldl sound_pit, Path.foldl_stepLexical fun t ht => (hnames t ht).isStep]
  rfl

theorem linkAt_relative {k : Place} (hne : k ≠ []) (hnames : ∀ t ∈ k, IsName t)
    (hlink : ∀ target, pit.entry? k ≠ some (.link target)) : pit.linkAt ⟨"", k⟩ = .ok none := by
  refine linkAt_eq_none ?_ ?_
  · rw [checkPath_relative hne hnames]
    split <;> simp
  · rw [placeOf_relative hnames]
    exact hlink

/-- Steps down the shaft are read as they are written. -/
theorem readSteps_shaft (through : Seen → Path → List String → Except Trouble Reading) (seen : Seen)
    (rest : List String) (n i : Nat) (hn : i + n = 15) :
    readSteps pit through seen ⟨"", shaft i⟩ (shaft n ++ rest)
      = readSteps pit through seen ⟨"", shaft 15⟩ rest := by
  induction n generalizing i with
  | zero =>
    have hi : i = 15 := hn
    rw [hi]
    rfl
  | succ n ih =>
    have hdeeper : Path.child ⟨"", shaft i⟩ (longWord 'd') = ⟨"", shaft (i + 1)⟩ := by
      simp [Path.child, shaft, List.replicate_succ']
    have hfolder := shaft_pit (n := i + 1) (by omega)
    have hask : pit.linkAt ⟨"", shaft (i + 1)⟩ = .ok none := by
      refine linkAt_relative (by simp [shaft, List.replicate_succ]) (fun t ht => ?_) ?_
      · exact sound_pit.isName (by rw [hfolder]; rfl) ht
      · rw [hfolder]
        simp
    have hcons : shaft (n + 1) ++ rest = longWord 'd' :: (shaft n ++ rest) := by
      simp [shaft, List.replicate_succ]
    rw [hcons, readSteps_plainStep isName_longWord_d.isStep (hdeeper ▸ hask), hdeeper]
    exact ih (i + 1) (by omega)

theorem linkAt_shelf : pit.linkAt (Path.child ⟨"", shaft 15⟩ (longWord 'e')) = .ok none :=
  linkAt_relative (by simp) (fun t ht => sound_pit.isName (by rw [shelf_pit]; rfl) ht)
    (by rw [shelf_pit]; simp)

theorem child_shelf : (Path.child ⟨"", shaft 15⟩ (longWord 'e')).child (longWord 'e')
    = ⟨"", cellar⟩ := by
  simp [Path.child, cellar]

theorem linkAt_cellar :
    pit.linkAt ((Path.child ⟨"", shaft 15⟩ (longWord 'e')).child (longWord 'e')) = .ok none := by
  rw [child_shelf]
  exact linkAt_relative (by simp [cellar]) (fun _ ht => isName_of_mem_cellar ht)
    (by rw [cellar_pit]; simp)

/-- The way to the cellar is read as the way down the shaft. -/
theorem exists_readLinks_descent (depth rounds : Nat) :
    ∃ seen, readLinks pit (depth + 2) [] ⟨"", []⟩ (descent rounds).parts
      = readSteps pit (readLinks pit (depth + 1)) seen ⟨"", cellar⟩
          (List.replicate rounds "loop") := by
  have hn : IsStep "n" := ⟨by decide, by decide, by decide⟩
  have hask : pit.linkAt (Path.child ⟨"", []⟩ "n") = .ok (some ladder) := by
    have hplace : pit.placeOf ⟨"", ["n"]⟩ = ["n"] := placeOf_relative (by decide)
    have hopen : pit.isOpenWay ⟨"", ["n"]⟩ := List.all_eq_true.mpr fun _ _ => rfl
    exact linkAt_eq_some.mpr ⟨by decide, hopen, hplace ▸ ladder_pit⟩
  have hin : readLinks pit (depth + 1) [(Path.child ⟨"", []⟩ "n", none)]
      (readingFrom ⟨"", []⟩ ladder) (linkParts ladder)
        = .ok ⟨true, ⟨"", shaft 15⟩, [(Path.child ⟨"", []⟩ "n", none)]⟩ := by
    have hstart : readingFrom ⟨"", []⟩ ladder = ⟨"", shaft 0⟩ := if_neg head_ladder
    have hread :=
      readSteps_shaft (readLinks pit depth) [(Path.child ⟨"", []⟩ "n", none)] [] 15 0 rfl
    rw [List.append_nil, readSteps] at hread
    rw [hstart, linkParts_ladder, readLinks_succ, hread]
  have hparts : (descent rounds).parts
      = "n" :: longWord 'e' :: longWord 'e' :: List.replicate rounds "loop" := rfl
  refine ⟨[(Path.child ⟨"", []⟩ "n", some ⟨"", shaft 15⟩), (Path.child ⟨"", []⟩ "n", none)], ?_⟩
  rw [readLinks_succ pit (depth + 1), hparts, readSteps_link hn hask rfl hin,
    readSteps_plainStep isName_longWord_e.isStep linkAt_shelf,
    readSteps_plainStep isName_longWord_e.isStep linkAt_cellar, child_shelf]

theorem realPath_of_readLinks {rounds : Nat} {k : Place} {seen : Seen}
    (h : readLinks pit nestingLimit [] ⟨"", []⟩ (descent rounds).parts = .ok ⟨true, ⟨"", k⟩, seen⟩)
    (hnames : ∀ t ∈ k, IsName t) : pit.realPath (descent rounds) = .ok (.ofPlace k) := by
  have hrelative : (descent rounds).isAbsolute = false := rfl
  rw [realPath]
  simp only [hrelative, Bool.false_eq_true, if_false, h, ok_bind, placeOf_relative hnames]
  rfl

theorem realPath_descent_zero : pit.realPath (descent 0) = .ok (.ofPlace cellar) := by
  obtain ⟨seen, hread⟩ := exists_readLinks_descent 978 0
  rw [List.replicate_zero, readSteps] at hread
  exact realPath_of_readLinks hread fun _ ht => isName_of_mem_cellar ht

/-- The link back is spelled by a path that is too long, and so it is taken for
a plain name. -/
theorem realPath_descent_one : pit.realPath (descent 1) = .ok (.ofPlace (cellar ++ ["loop"])) := by
  have hnames : ∀ t ∈ cellar ++ ["loop"], IsName t := fun t ht =>
    sound_pit.isName (by rw [loop_pit]; rfl) ht
  have hlong : checkPath ⟨"", cellar ++ ["loop"]⟩ = .error .nameTooLong := by
    rw [checkPath_relative (by simp) hnames, if_pos]
    have hshaft : ((shaft 15).map fun t => t.utf8ByteSize + 1).sum = 15 * 251 := by
      simp [shaft, size_longWord_d]
    have hloop : "loop".utf8ByteSize = 4 := by decide
    rw [cellar, List.append_assoc, List.map_append, List.sum_append, hshaft]
    simp [size_longWord_e, hloop, pathLimit]
  have hask : pit.linkAt (Path.child ⟨"", cellar⟩ "loop") = .ok none := linkAt_of_tooLong hlong
  obtain ⟨seen, hread⟩ := exists_readLinks_descent 978 1
  have hloop : IsStep "loop" := ⟨by decide, by decide, by decide⟩
  rw [List.replicate_one, readSteps_plainStep hloop hask, readSteps] at hread
  exact realPath_of_readLinks hread hnames

/-! ### The scan -/

theorem namesAt_cellar : pit.namesAt cellar = ["loop", "x.js"] := by
  have hmem : ∀ name, name ∈ pit.namesAt cellar ↔ name ∈ ["loop", "x.js"] := by
    intro name
    rw [mem_namesAt, ← mem_keys_iff (by simp), mem_keys_pit]
    have hlength : ∀ {k : Place}, k.length < 18 → cellar ++ [name] ≠ k := by
      rintro k hk rfl
      simp [length_cellar] at hk
    constructor
    · rintro (⟨i, hi, h⟩ | h | h | h | h | h)
      · exact absurd h (hlength (by rw [length_shaft]; omega))
      · exact absurd h (hlength (by decide))
      · exact absurd h (hlength (by simp [length_shaft]))
      · exact absurd h (hlength (by simp [length_cellar]))
      · have hname : name = "x.js" := by simpa using h
        simp [hname]
      · have hname : name = "loop" := by simpa using h
        simp [hname]
    · intro hname
      have hname : name = "loop" ∨ name = "x.js" := by simpa using hname
      rcases hname with rfl | rfl <;> simp
  have hsorted := increasing_namesAt nodup_keys_pit cellar
  have hperm : (pit.namesAt cellar).Perm ["loop", "x.js"] :=
    (List.perm_ext_iff_of_nodup (nodup_namesAt nodup_keys_pit cellar) (by decide)).mpr hmem
  refine hperm.eq_of_pairwise (fun a b _ _ hab hba => ?_) hsorted (by decide)
  exact absurd (String.lt_trans hab hba) (String.lt_irrefl a)

theorem locate_cellar {rounds : Nat} (hrounds : rounds < linkLimit) :
    pit.locate (descent rounds) = .ok cellar := by
  have hwalk : Walk pit false cellar 0 cellar [] := .done
  have hlocate := locate_descent hwalk (by simp) hrounds
    (by simp [pathLimit, linkLimit] at *; omega)
  rwa [Path.join_relative, List.append_nil] at hlocate

theorem find_cellar {rounds : Nat} (hrounds : rounds < linkLimit) :
    pit.find (descent rounds) = .ok (some .folder) :=
  find_eq_some.mpr ⟨cellar, locate_cellar hrounds, cellar_pit⟩

theorem locate_file {rounds : Nat} (hrounds : rounds < linkLimit) :
    pit.locate ((descent rounds).child "x.js") = .ok (cellar ++ ["x.js"]) := by
  have hname : IsName "x.js" := by decide
  have hwalk : Walk pit false (cellar ++ ["x.js"]) 0 cellar ["x.js"] :=
    .ends rfl (hname.canStep []) (by rw [file_pit]; trivial) rfl
  have hsize : "x.js".utf8ByteSize = 4 := by decide
  have hlocate := locate_descent hwalk (by simpa using hname) hrounds
    (by simp [pathLimit, linkLimit, hsize] at *; omega)
  rwa [Path.join_relative] at hlocate

theorem find_file {rounds : Nat} (hrounds : rounds < linkLimit) :
    pit.find ((descent rounds).child "x.js") = .ok (some (.file (.text ""))) :=
  find_eq_some.mpr ⟨_, locate_file hrounds, file_pit⟩

theorem isSource_file (rounds : Nat) : Language.isSource ((descent rounds).child "x.js") := by
  rw [isSource_child _ []]
  decide

theorem shown_descent (rounds : Nat) :
    shown pit (descent 0) (descent rounds, "x.js")
      = "/".intercalate (List.replicate rounds "loop" ++ ["x.js"]) := by
  have hjoin : (descent rounds).child "x.js"
      = (descent 0).join ⟨"", List.replicate rounds "loop" ++ ["x.js"]⟩ := by
    rw [Path.join_relative]
    simp [descent, Path.child]
  rw [shown, hjoin]
  refine relativeTo_join _ _ (List.forall_mem_append.mpr ⟨fun t ht => ?_, ?_⟩) (by simp)
  · rw [List.eq_of_mem_replicate ht]
    exact ⟨by decide, by decide, by decide⟩
  · simpa using (⟨by decide, by decide, by decide⟩ : IsStep "x.js")

/-- A scan of the cellar goes into the loop, and then finds the file. -/
theorem below_descent {rounds n : Nat} {real : Path} {s t : State} (hrounds : rounds < linkLimit)
    (hreal : pit.realPath (descent rounds) = .ok real) (hnew : real ∉ s.visited)
    (hloop : entry pit ⟨descent 0, []⟩ (below pit ⟨descent 0, []⟩ n) (descent rounds)
      { s with visited := real :: s.visited } "loop" = t) :
    below pit ⟨descent 0, []⟩ (n + 1) (descent rounds) s
      = .ok { t with files := t.files
                ++ ["/".intercalate (List.replicate rounds "loop" ++ ["x.js"])] } := by
  have hnames : pit.names (descent rounds) = .ok ["loop", "x.js"] :=
    names_eq_ok.mpr ⟨cellar, locate_cellar hrounds, cellar_pit, rfl, namesAt_cellar.symm⟩
  have hthere := pathExists_eq_true.mpr ⟨_, find_cellar hrounds⟩
  rw [below_of_new hthere hreal hnew hnames, List.foldl_cons, List.foldl_cons, List.foldl_nil,
    hloop, entry_of_file (find_file hrounds) (isSource_file rounds), shown_descent]

/-- Where a link is spelled by a path that is too long, a scan goes round in a
loop and finds one file again and again. -/
theorem loop_below_longPath :
    Sound pit ∧ ¬ Legible pit (descent 1) ∧
      ∃ s, folder pit (descent 0) (descent 0) [] = .ok s ∧
        ∀ f ∈ ["x.js", "loop/x.js"], f ∈ s.files ∧
          pit.locate ((descent 0).join (.ofString f)) = .ok (cellar ++ ["x.js"]) := by
  have hparts : ∀ t ∈ (descent 1).parts, t ≠ "" := fun t ht => (isName_of_mem_descent t ht).ne_empty
  have hne : (Path.ofPlace (cellar ++ ["loop"])) ≠ .ofPlace cellar := by simp [Path.ofPlace]
  refine ⟨sound_pit, fun hlegible => ?_, ?_⟩
  · have hreal := Opens.realPath_of_legible ⟨hparts, locate_cellar (by decide)⟩ sound_pit hlegible
    rw [realPath_descent_one] at hreal
    exact hne (Except.ok.inj hreal)
  -- the loop leads back to the cellar, but under another plain name
  obtain ⟨t, hround⟩ : ∃ t : State,
      below pit ⟨descent 0, []⟩ 50 (descent 1) { visited := [.ofPlace cellar] }
        = .ok { t with files := t.files ++ ["loop/x.js"] } := by
    refine ⟨_, below_descent (by decide) realPath_descent_one (fun hmem => ?_) rfl⟩
    exact hne (List.mem_singleton.mp hmem)
  have hfolder : pit.find ((descent 0).child "loop") = .ok (some .folder) := by
    rw [descent_child]
    exact find_cellar (by decide)
  have hloop : entry pit ⟨descent 0, []⟩ (below pit ⟨descent 0, []⟩ 50) (descent 0)
      { visited := [.ofPlace cellar] } "loop" = { t with files := t.files ++ ["loop/x.js"] } :=
    entry_of_folder hfolder (by simp) (by rw [descent_child]; exact hround)
  refine ⟨_, below_descent (by decide) realPath_descent_zero (by simp) hloop, fun f hf => ?_⟩
  have hf : f = "x.js" ∨ f = "loop/x.js" := by simpa using hf
  rcases hf with rfl | rfl
  · refine ⟨by simp, ?_⟩
    have hread : (descent 0).join (.ofString "x.js") = (descent 0).child "x.js" := by decide +kernel
    rw [hread]
    exact locate_file (by decide)
  · refine ⟨by simp, ?_⟩
    have hread : (descent 0).join (.ofString "loop/x.js") = (descent 1).child "x.js" := by
      decide +kernel
    rw [hread]
    exact locate_file (by decide)

end CodeAtlas.Scan
