import CodeAtlas.Proofs.Diagram.Identifiers
import Mathlib.Data.List.Basic
/-
  A diagram, read line by line.

  A line opens a cluster, declares a node or draws a call. `clusterId?`,
  `nodeId?` and `edge?` read the identifiers off it again, and each of them
  passes over the lines of the other two kinds. What is read off a line was
  written there (`eq_arrow_of_edge?`), and what is written can be read
  (`clusterIds_cluster`, `nodeIds_cluster`, `edge?_arrow`).

  The lines are joined by line feeds. They can be found again in the text when
  no title has a line feed (`Unbroken`).
-/

namespace CodeAtlas.Diagram

open CodeAtlas.Text

/-! ## Identifiers -/

/-- How an identifier is written: a fixed beginning, and then plain characters and
underscores. -/
def IsId (id : String) : Prop :=
  ∃ rest, id.toList = 'i' :: 'd' :: '_' :: rest ∧ ∀ c ∈ rest, isPlain c = true ∨ c = '_'

theorem isId_idOf (name : String) : IsId (idOf name) :=
  ⟨_, toList_idOf name, fun _ => mem_spelled⟩

theorem isId_memberId (path name : String) : IsId (memberId path name) := by
  refine ⟨_, toList_memberId path name, fun c hc => ?_⟩
  have hmem : c ∈ (memberId path name).toList := by
    rw [toList_memberId]
    exact List.mem_cons_of_mem _ (List.mem_cons_of_mem _ (List.mem_cons_of_mem _ hc))
  exact mem_memberId hmem

/-! ## Reading a line -/

/-- The identifier in front of a title. -/
def idBefore (cs : List Char) : String := String.ofList (cs.takeWhile (· ≠ '['))

/-- The identifier of the cluster that a line opens. -/
def clusterId? (line : String) : Option String :=
  (dropPrefix? "  subgraph ".toList line.toList).map idBefore

/-- The identifier of the node that a line declares. -/
def nodeId? (line : String) : Option String :=
  (dropPrefix? "    ".toList line.toList).map idBefore

/-- The ends of the call that a line draws. Such a line begins with an
identifier, and the first blank ends it. -/
def edge? (line : String) : Option (String × String) :=
  match dropPrefix? "  id_".toList line.toList with
  | none => none
  | some rest =>
    (dropPrefix? " --> ".toList (rest.dropWhile (· ≠ ' '))).map fun target =>
      ("id_" ++ String.ofList (rest.takeWhile (· ≠ ' ')), String.ofList target)

/-- The identifiers of the clusters, line by line. -/
def clusterIds (lines : List String) : List String := lines.filterMap clusterId?

/-- The identifiers of the nodes. -/
def nodeIds (lines : List String) : List String := lines.filterMap nodeId?

/-- All identifiers that are declared. -/
def declaredIds (lines : List String) : List String := clusterIds lines ++ nodeIds lines

/-- The calls that are drawn. -/
def edges (lines : List String) : List (String × String) := lines.filterMap edge?

section

variable {id a : String}

theorem idBefore_titled (h : IsId id) (title : String) :
    idBefore (titled id title).toList = id := by
  have htitled : (titled id title).toList = id.toList ++ '[' :: (quoted title ++ "]").toList := by
    simp [titled, String.toList_append]
  have hid : ∀ c ∈ id.toList, decide (c ≠ '[') = true := by
    obtain ⟨rest, hrest, hplain⟩ := h
    intro c hc
    rw [hrest] at hc
    simp only [List.mem_cons] at hc
    rw [decide_eq_true_eq]
    rintro rfl
    rcases hc with hc | hc | hc | hc
    · exact absurd hc (by decide)
    · exact absurd hc (by decide)
    · exact absurd hc (by decide)
    · exact absurd (hplain _ hc) (by decide)
  rw [idBefore, htitled, takeWhile_run hid (stops_cons (by decide) _), String.ofList_toList]

/-- The ends of a call are read off its line. -/
theorem edge?_arrow (h : IsId a) (b : String) : edge? (arrow a b) = some (a, b) := by
  obtain ⟨rest, hrest, hplain⟩ := h
  have hsolid : ∀ c ∈ rest, decide (c ≠ ' ') = true := by
    intro c hc
    rw [decide_eq_true_eq]
    rintro rfl
    exact absurd (hplain _ hc) (by decide)
  have hline : (arrow a b).toList
      = "  id_".toList ++ (rest ++ (" --> ".toList ++ b.toList)) := by
    rw [toList_arrow, hrest]
    simp
  have hblank : Stops (fun c => decide (c ≠ ' ')) (" --> ".toList ++ b.toList) :=
    stops_cons (by decide) _
  have ha : "id_" ++ String.ofList rest = a := by
    apply String.toList_inj.mp
    simp [String.toList_append, hrest]
  rw [edge?, hline, dropPrefix?_append]
  dsimp only
  rw [takeWhile_run hsolid hblank, dropWhile_run hsolid hblank, dropPrefix?_append,
    Option.map_some, String.ofList_toList, ha]

/-- The line of a call is known from its ends. -/
theorem eq_arrow_of_edge? {line b : String} (h : edge? line = some (a, b)) : line = arrow a b := by
  unfold edge? at h
  split at h
  · cases h
  next rest hline =>
  obtain ⟨target, htarget, heq⟩ := Option.map_eq_some_iff.mp h
  obtain ⟨rfl, rfl⟩ := Prod.mk.inj heq
  have hrest : rest.takeWhile (· ≠ ' ') ++ (" --> ".toList ++ target) = rest := by
    rw [← dropPrefix?_eq_some htarget]
    exact List.takeWhile_append_dropWhile
  apply String.toList_inj.mp
  calc line.toList
      = "  id_".toList ++ rest := dropPrefix?_eq_some hline
    _ = "  id_".toList ++ (rest.takeWhile (· ≠ ' ') ++ (" --> ".toList ++ target)) := by rw [hrest]
    _ = _ := by
        rw [toList_arrow]
        simp [String.toList_append]

theorem arrow_inj {a' b b' : String} (ha : IsId a) (ha' : IsId a')
    (h : arrow a b = arrow a' b') : a = a' ∧ b = b' := by
  have hread := edge?_arrow ha b
  rw [h, edge?_arrow ha', Option.some.injEq, Prod.mk.injEq] at hread
  exact ⟨hread.1.symm, hread.2.symm⟩

-- The third character of a line tells which of the three it is.

theorem clusterId?_arrow (h : IsId a) (b : String) : clusterId? (arrow a b) = none := by
  obtain ⟨rest, hrest, -⟩ := h
  simp [clusterId?, toList_arrow, hrest, dropPrefix?]

theorem nodeId?_arrow (h : IsId a) (b : String) : nodeId? (arrow a b) = none := by
  obtain ⟨rest, hrest, -⟩ := h
  simp [nodeId?, toList_arrow, hrest, dropPrefix?]

end

/-! ## Reading a cluster -/

/-- What is read off a cluster: its first line, and the line of each node. -/
theorem filterMap_cluster {β : Type} (read : String → Option β) (hend : read "  end" = none)
    (id title : String) (nodes : List (String × String)) :
    (cluster id title nodes).filterMap read = (read ("  subgraph " ++ titled id title)).toList
      ++ nodes.filterMap fun n => read ("    " ++ titled n.1 n.2) := by
  rw [cluster, List.filterMap_append, List.filterMap_cons, List.filterMap_map,
    List.filterMap_cons_none hend]
  cases read ("  subgraph " ++ titled id title) <;> simp

theorem clusterIds_cluster {id : String} (h : IsId id) (title : String)
    (nodes : List (String × String)) : clusterIds (cluster id title nodes) = [id] := by
  have hopens : clusterId? ("  subgraph " ++ titled id title) = some id := by
    simp [clusterId?, String.toList_append, idBefore_titled h]
  have hnode : ∀ n : String × String, clusterId? ("    " ++ titled n.1 n.2) = none := by
    intro n
    simp [clusterId?, String.toList_append, dropPrefix?]
  rw [clusterIds, filterMap_cluster clusterId? (by decide), hopens]
  simp [hnode]

theorem nodeIds_cluster (id title : String) {nodes : List (String × String)}
    (h : ∀ n ∈ nodes, IsId n.1) : nodeIds (cluster id title nodes) = nodes.map Prod.fst := by
  have hopens : nodeId? ("  subgraph " ++ titled id title) = none := by
    simp [nodeId?, String.toList_append, dropPrefix?]
  have hnode : ∀ n ∈ nodes, nodeId? ("    " ++ titled n.1 n.2) = some n.1 := by
    intro n hn
    simp [nodeId?, String.toList_append, idBefore_titled (h n hn)]
  rw [nodeIds, filterMap_cluster nodeId? (by decide), hopens,
    List.filterMap_eq_map_iff_forall_eq_some.mpr hnode]
  rfl

theorem edges_cluster (id title : String) (nodes : List (String × String)) :
    edges (cluster id title nodes) = [] := by
  have hopens : edge? ("  subgraph " ++ titled id title) = none := by
    simp [edge?, String.toList_append, dropPrefix?]
  have hnode : ∀ n : String × String, edge? ("    " ++ titled n.1 n.2) = none := by
    intro n
    simp [edge?, String.toList_append, dropPrefix?]
  rw [edges, filterMap_cluster edge? (by decide), hopens]
  simp [hnode]

theorem mem_cluster {id title line : String} {nodes : List (String × String)}
    (h : line ∈ cluster id title nodes) :
    line = "  subgraph " ++ titled id title ∨
      (∃ n ∈ nodes, line = "    " ++ titled n.1 n.2) ∨ line = "  end" := by
  simp only [cluster, List.mem_cons, List.mem_append, List.mem_map, List.not_mem_nil,
    or_false] at h
  rcases h with (h | ⟨n, hn, rfl⟩) | h
  · exact Or.inl h
  · exact Or.inr (Or.inl ⟨n, hn, rfl⟩)
  · exact Or.inr (Or.inr h)

/-! ## Finding the lines in the text -/

/-- A text without line feeds. -/
def Unbroken (s : String) : Prop := '\n' ∉ s.toList

theorem unbroken_append {s t : String} : Unbroken (s ++ t) ↔ Unbroken s ∧ Unbroken t := by
  rw [Unbroken, String.toList_append, List.mem_append, not_or]
  rfl

theorem unbroken_idOf (name : String) : Unbroken (idOf name) := by
  intro h
  rcases mem_idOf h with h | h <;> exact absurd h (by decide)

theorem unbroken_memberId (path name : String) : Unbroken (memberId path name) := by
  intro h
  rcases mem_memberId h with h | h <;> exact absurd h (by decide)

theorem unbroken_titled {id title : String} (hid : Unbroken id) (htitle : Unbroken title) :
    Unbroken (titled id title) := by
  have hquoted : Unbroken (quoted title) := by
    refine unbroken_append.mpr ⟨unbroken_append.mpr ⟨by simp [Unbroken], ?_⟩, by simp [Unbroken]⟩
    rw [Unbroken, String.toList_ofList]
    intro h
    obtain ⟨c, hc, h⟩ := List.mem_flatMap.mp h
    split at h
    · simp at h
    · rw [List.mem_singleton] at h
      exact htitle (h ▸ hc)
  exact unbroken_append.mpr
    ⟨unbroken_append.mpr ⟨unbroken_append.mpr ⟨hid, by simp [Unbroken]⟩, hquoted⟩,
      by simp [Unbroken]⟩

theorem unbroken_cluster {id title line : String} {nodes : List (String × String)}
    (hid : Unbroken id) (htitle : Unbroken title)
    (hnodes : ∀ n ∈ nodes, Unbroken n.1 ∧ Unbroken n.2) (h : line ∈ cluster id title nodes) :
    Unbroken line := by
  rcases mem_cluster h with rfl | ⟨n, hn, rfl⟩ | rfl
  · exact unbroken_append.mpr ⟨by simp [Unbroken], unbroken_titled hid htitle⟩
  · exact unbroken_append.mpr
      ⟨by simp [Unbroken], unbroken_titled (hnodes n hn).1 (hnodes n hn).2⟩
  · simp [Unbroken]

theorem unbroken_arrow {a b : String} (ha : Unbroken a) (hb : Unbroken b) :
    Unbroken (arrow a b) := by
  refine unbroken_append.mpr ⟨unbroken_append.mpr ⟨unbroken_append.mpr ⟨?_, ha⟩, ?_⟩, hb⟩ <;>
    simp [Unbroken]

/-- Lines without line feeds are found again between those that join them. -/
theorem splitOn_lines {lines : List String} (hne : lines ≠ [])
    (h : ∀ line ∈ lines, Unbroken line) :
    ("\n".intercalate lines).toList.splitOn '\n' = lines.map String.toList := by
  rw [String.toList_intercalate]
  apply List.splitOn_intercalate
  · intro l hl
    obtain ⟨line, hline, rfl⟩ := List.mem_map.mp hl
    exact h line hline
  · simpa using hne

end CodeAtlas.Diagram
