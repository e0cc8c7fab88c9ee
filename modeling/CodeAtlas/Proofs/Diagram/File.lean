import CodeAtlas.Proofs.Diagram.Project
/-
  The diagram of one file.

  Read line by line, the diagram of a file has one cluster, named for the file,
  a node for every callable, and an edge for every call that resolves within the
  file.

  Clusters and nodes share their identifiers, and here no path stands in front
  of a callable to keep them apart. So they are distinct exactly when no callable
  has the name of the file (`fileDiagram_ofFile`), and `foo` in `foo.js` is one
  that has it (`node_takes_cluster_id`).
-/

namespace CodeAtlas.Diagram

open CodeAtlas.Text

/-! ## The lines of a file -/

/-- The name of the cluster of a file. -/
def stemOf (f : FileOutline) : String := (Path.ofString f.path).stem

/-- The cluster of a file. -/
def clusterOf (f : FileOutline) : List String :=
  cluster (idOf (stemOf f)) (stemOf f) (f.outline.callables.map fun n => (idOf n, n))

/-- The lines of some calls. -/
def arrows (calls : List (String × String)) : List String :=
  calls.map fun call => arrow (idOf call.1) (idOf call.2)

/-- The lines of the diagram of a file: its kind, the cluster, and the calls. -/
def fileLines (f : FileOutline) : List String :=
  "flowchart TD" :: clusterOf f ++ arrows (localCalls f.outline)

/-- A file with callables is drawn. -/
theorem ofFile_eq {f : FileOutline} (h : f.outline.callables ≠ []) :
    ofFile f.path f.outline = some ("\n".intercalate (fileLines f)) := by
  unfold ofFile
  split
  · next hnil => exact absurd hnil h
  · rfl

/-- The first line is passed over. -/
theorem filterMap_fileLines {β : Type} (read : String → Option β)
    (hkind : read "flowchart TD" = none) (f : FileOutline) :
    (fileLines f).filterMap read
      = (clusterOf f).filterMap read ++ (arrows (localCalls f.outline)).filterMap read := by
  rw [fileLines, List.cons_append, List.filterMap_cons_none hkind, List.filterMap_append]

theorem clusterIds_arrows (calls : List (String × String)) : clusterIds (arrows calls) = [] := by
  simp [clusterIds, arrows, clusterId?_arrow, isId_idOf]

theorem nodeIds_arrows (calls : List (String × String)) : nodeIds (arrows calls) = [] := by
  simp [nodeIds, arrows, nodeId?_arrow, isId_idOf]

theorem edges_arrows (calls : List (String × String)) :
    edges (arrows calls) = calls.map fun call => (idOf call.1, idOf call.2) := by
  simp [edges, arrows, List.filterMap_map, edge?_arrow, isId_idOf]

theorem clusterIds_fileLines (f : FileOutline) : clusterIds (fileLines f) = [idOf (stemOf f)] :=
  calc clusterIds (fileLines f)
      = clusterIds (clusterOf f) ++ clusterIds (arrows (localCalls f.outline)) :=
        filterMap_fileLines clusterId? (by decide) f
    _ = [idOf (stemOf f)] := by
        rw [clusterOf, clusterIds_cluster (isId_idOf _), clusterIds_arrows, List.append_nil]

theorem nodeIds_fileLines (f : FileOutline) :
    nodeIds (fileLines f) = f.outline.callables.map idOf :=
  calc nodeIds (fileLines f)
      = nodeIds (clusterOf f) ++ nodeIds (arrows (localCalls f.outline)) :=
        filterMap_fileLines nodeId? (by decide) f
    _ = f.outline.callables.map idOf := by
        rw [clusterOf, nodeIds_cluster _ _ (by simp [isId_idOf]), nodeIds_arrows, List.append_nil,
          List.map_map]
        rfl

theorem edges_fileLines (f : FileOutline) :
    edges (fileLines f) = (localCalls f.outline).map fun call => (idOf call.1, idOf call.2) :=
  calc edges (fileLines f)
      = edges (clusterOf f) ++ edges (arrows (localCalls f.outline)) :=
        filterMap_fileLines edge? (by decide) f
    _ = (localCalls f.outline).map fun call => (idOf call.1, idOf call.2) := by
        rw [clusterOf, edges_cluster, edges_arrows, List.nil_append]

/-! ## Calls within a file -/

/-- The calls that are drawn are those of callables that resolve within the
file. -/
theorem mem_localCalls {f : FileOutline} {caller target : String} :
    (caller, target) ∈ localCalls f.outline ↔
      caller ∈ f.outline.callables ∧
        ∃ callee, Calls f caller callee ∧ ResolvesWithin f caller callee target := by
  simp only [localCalls, List.mem_filterMap, Option.map_eq_some_iff, Prod.mk.injEq,
    localTarget?_eq_some]
  constructor
  · rintro ⟨⟨c, callee⟩, hlisted, t, hresolves, rfl, rfl⟩
    obtain ⟨hcaller, hcalls⟩ := mem_listedCalls.mp hlisted
    exact ⟨hcaller, callee, hcalls, hresolves⟩
  · rintro ⟨hcaller, callee, hcalls, hresolves⟩
    exact ⟨(caller, callee), mem_listedCalls.mpr ⟨hcaller, hcalls⟩, target, hresolves, rfl, rfl⟩

theorem exists_of_mem_edges {f : FileOutline} {a b : String} (h : (a, b) ∈ edges (fileLines f)) :
    ∃ caller target, (caller, target) ∈ localCalls f.outline ∧
      a = idOf caller ∧ b = idOf target := by
  rw [edges_fileLines, List.mem_map] at h
  obtain ⟨⟨caller, target⟩, hmem, heq⟩ := h
  obtain ⟨rfl, rfl⟩ := Prod.mk.inj heq
  exact ⟨caller, target, hmem, rfl, rfl⟩

theorem mem_edges_fileLines {f : FileOutline} {caller target : String} :
    (idOf caller, idOf target) ∈ edges (fileLines f) ↔
      (caller, target) ∈ localCalls f.outline := by
  constructor
  · intro h
    obtain ⟨c, t, hmem, hc, ht⟩ := exists_of_mem_edges h
    rwa [idOf_inj hc, idOf_inj ht]
  · intro h
    rw [edges_fileLines]
    exact List.mem_map.mpr ⟨(caller, target), h, rfl⟩

/-! ## Identifiers of a file -/

theorem unbroken_fileLines {f : FileOutline} (hstem : Unbroken (stemOf f))
    (hnames : ∀ name ∈ f.outline.callables, Unbroken name) :
    ∀ line ∈ fileLines f, Unbroken line := by
  intro line hline
  rw [fileLines, List.cons_append, List.mem_cons, List.mem_append] at hline
  rcases hline with rfl | hline | hline
  · simp [Unbroken]
  · refine unbroken_cluster (unbroken_idOf (stemOf f)) hstem ?_ hline
    intro n hn
    obtain ⟨name, hname, rfl⟩ := List.mem_map.mp hn
    exact ⟨unbroken_idOf name, hnames name hname⟩
  · obtain ⟨call, -, rfl⟩ := List.mem_map.mp hline
    exact unbroken_arrow (unbroken_idOf _) (unbroken_idOf _)

/-- The diagram of a file: what its lines declare and draw. -/
structure FileDiagram (f : FileOutline) : Prop where
  text : ofFile f.path f.outline = some ("\n".intercalate (fileLines f))
  /-- One cluster, and a node for every callable. -/
  clusters : clusterIds (fileLines f) = [idOf (stemOf f)]
  nodes : nodeIds (fileLines f) = f.outline.callables.map idOf
  /-- No two nodes share an identifier. -/
  nodup_nodes : (nodeIds (fileLines f)).Nodup
  /-- The cluster shares its own exactly with the callable that has the name of
  the file. -/
  nodup_iff : (declaredIds (fileLines f)).Nodup ↔ stemOf f ∉ f.outline.callables
  /-- Both ends of an edge are nodes. -/
  ends : ∀ e ∈ edges (fileLines f), e.1 ∈ nodeIds (fileLines f) ∧ e.2 ∈ nodeIds (fileLines f)
  /-- The lines can be read off the text when no title is broken. -/
  readable : Unbroken (stemOf f) → (∀ name ∈ f.outline.callables, Unbroken name) →
    (ofFile f.path f.outline).map (fun text => text.toList.splitOn '\n')
      = some ((fileLines f).map String.toList)

/-- The diagram of a file with callables has a node of its own for every callable,
and a cluster of its own unless a callable has the name of the file. -/
theorem fileDiagram_ofFile (f : FileOutline) (h : f.outline.callables ≠ []) : FileDiagram f := by
  have hnodes : (f.outline.callables.map idOf).Nodup :=
    (nodup_distinct _).map fun _ _ h => idOf_inj h
  constructor
  case text => exact ofFile_eq h
  case clusters => exact clusterIds_fileLines f
  case nodes => exact nodeIds_fileLines f
  case nodup_nodes => rwa [nodeIds_fileLines]
  case nodup_iff =>
    rw [declaredIds, clusterIds_fileLines, nodeIds_fileLines, List.singleton_append,
      List.nodup_cons, and_iff_left hnodes]
    refine not_congr ⟨?_, List.mem_map_of_mem⟩
    intro hmem
    obtain ⟨name, hname, heq⟩ := List.mem_map.mp hmem
    rwa [idOf_inj heq] at hname
  case ends =>
    rintro ⟨a, b⟩ he
    obtain ⟨caller, target, hmem, rfl, rfl⟩ := exists_of_mem_edges he
    obtain ⟨hcaller, callee, -, hresolves⟩ := mem_localCalls.mp hmem
    rw [nodeIds_fileLines]
    exact ⟨List.mem_map_of_mem hcaller, List.mem_map_of_mem hresolves.mem⟩
  case readable =>
    intro hstem hnames
    rw [ofFile_eq h, Option.map_some,
      splitOn_lines (by simp [fileLines]) (unbroken_fileLines hstem hnames)]

/-- A class with a method that calls another and a function. -/
def sampleFile : FileOutline :=
  ⟨"src/app.js", {
    functions := [⟨"c", "", 5, 5, ""⟩]
    classes := [⟨"K", 1, 4, none, "", [⟨"a", "", 2, false, .method, ""⟩,
      ⟨"b", "", 3, false, .method, ""⟩]⟩]
    calls := ⟨[("K.a", ["b", "c", "d"])]⟩ }⟩

theorem fileDiagram_ofFile_sample :
    sampleFile.outline.callables ≠ [] ∧ FileDiagram sampleFile ∧
      (declaredIds (fileLines sampleFile)).Nodup ∧
      edges (fileLines sampleFile) = [("id_K_46_a", "id_K_46_b"), ("id_K_46_a", "id_c")] := by
  have h : sampleFile.outline.callables ≠ [] := by decide
  exact ⟨h, fileDiagram_ofFile sampleFile h,
    (fileDiagram_ofFile sampleFile h).nodup_iff.mpr (by decide), by decide +kernel⟩

/-- A file with a function of its own name. -/
def namesake : FileOutline := ⟨"foo.js", { functions := [⟨"foo", "", 1, 1, ""⟩] }⟩

/-- The node of a function with the name of the file has the identifier of the
cluster. -/
theorem node_takes_cluster_id :
    namesake.outline.callables = ["foo"] ∧
      ofFile namesake.path namesake.outline
        = some "flowchart TD\n  subgraph id_foo[\"foo\"]\n    id_foo[\"foo\"]\n  end" ∧
      declaredIds (fileLines namesake) = ["id_foo", "id_foo"] ∧
      ¬ (declaredIds (fileLines namesake)).Nodup := by
  decide +kernel

end CodeAtlas.Diagram
