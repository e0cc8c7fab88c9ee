import CodeAtlas.Proofs.Diagram.Lines
import CodeAtlas.Proofs.Table
/-
  The diagram of several files is a graph, with exactly the calls that resolve.

  `Resolves` says which callable a callee stands for: one of the caller's own
  file if there is one (`ResolvesWithin`), and else that of the first file that
  lists it. `exactDiagram_ofProject` says that the diagram, read line by line,
  has a cluster for every file with callables, a node for every callable, and an
  edge for every call that resolves, and nothing else.

  An edge is kept as a line of text, and lines that are equal are drawn once.
  That this loses no call and makes none up rests on the ends of a call being
  known from its line, and on the identifiers (`mem_edges_projectLines`).
-/

namespace CodeAtlas.Diagram

open CodeAtlas.Text

/-! ## What a callee stands for -/

/-- The outline of the file lists `callee` under `caller`. -/
def Calls (f : FileOutline) (caller callee : String) : Prop :=
  ∃ callees, (caller, callees) ∈ f.outline.calls.entries ∧ callee ∈ callees

/-- The callable of the caller's own file that a callee stands for: the one of
that name, or else the method of that name in the caller's class. -/
inductive ResolvesWithin (f : FileOutline) (caller callee : String) : String → Prop where
  | itself : callee ∈ f.outline.callables → ResolvesWithin f caller callee callee
  | sameClass {owner own : String} : callee ∉ f.outline.callables →
      caller = owner ++ "." ++ own → '.' ∉ own.toList →
      owner ++ "." ++ callee ∈ f.outline.callables →
      ResolvesWithin f caller callee (owner ++ "." ++ callee)

/-- The file and the callable that a callee stands for: those of the caller's
own file, or else the callable of that name in the first file that has it. -/
inductive Resolves (files : List FileOutline) (f : FileOutline) (caller callee : String) :
    String → String → Prop where
  | within {target : String} : ResolvesWithin f caller callee target →
      Resolves files f caller callee f.path target
  | first {before after : List FileOutline} {g : FileOutline} :
      (∀ target, ¬ ResolvesWithin f caller callee target) → files = before ++ g :: after →
      (∀ h ∈ before, callee ∉ h.outline.callables) → callee ∈ g.outline.callables →
      Resolves files f caller callee g.path callee

theorem ownerName?_append {owner own : String} (h : '.' ∉ own.toList) :
    ownerName? (owner ++ "." ++ own) = some owner := by
  have hback : (owner ++ "." ++ own).toList.reverse
      = own.toList.reverse ++ '.' :: owner.toList.reverse := by
    simp [String.toList_append]
  have hown : ∀ c ∈ own.toList.reverse, decide (c ≠ '.') = true := by
    intro c hc
    rw [decide_eq_true_eq]
    rintro rfl
    exact h (List.mem_reverse.mp hc)
  rw [ownerName?, hback, if_pos (by simp), dropWhile_run hown (stops_cons (by decide) _)]
  simp

/-- The owner in a name is what stands before its last dot. -/
theorem ownerName?_eq_some {name owner : String} :
    ownerName? name = some owner ↔ ∃ own, name = owner ++ "." ++ own ∧ '.' ∉ own.toList := by
  constructor
  · intro h
    have hdot : '.' ∈ name.toList.reverse := by
      by_contra hnone
      rw [ownerName?, if_neg hnone] at h
      cases h
    obtain ⟨back, rest, hsplit, hback⟩ := List.eq_append_cons_of_mem hdot
    have hown : '.' ∉ (String.ofList back.reverse).toList := by simpa using hback
    have hname : name = String.ofList rest.reverse ++ "." ++ String.ofList back.reverse := by
      apply String.toList_inj.mp
      rw [← List.reverse_reverse name.toList, hsplit]
      simp [String.toList_append]
    rw [hname, ownerName?_append hown, Option.some.injEq] at h
    exact ⟨_, h ▸ hname, hown⟩
  · rintro ⟨own, rfl, hown⟩
    exact ownerName?_append hown

theorem localTarget?_eq_some {f : FileOutline} {caller callee target : String} :
    localTarget? f.outline.callables caller callee = some target ↔
      ResolvesWithin f caller callee target := by
  unfold localTarget?
  constructor
  · intro h
    split at h
    · next hmem =>
      cases h
      exact .itself hmem
    next hmem =>
    split at h
    · cases h
    next owner howner =>
    obtain ⟨own, hcaller, hown⟩ := ownerName?_eq_some.mp howner
    dsimp only at h
    split at h
    · next hqualified =>
      cases h
      exact .sameClass hmem hcaller hown hqualified
    · cases h
  · intro h
    cases h with
    | itself hmem => exact if_pos hmem
    | sameClass hmem hcaller hown hqualified =>
      rw [if_neg hmem, hcaller, ownerName?_append hown]
      exact if_pos hqualified

theorem ResolvesWithin.mem {f : FileOutline} {caller callee target : String}
    (h : ResolvesWithin f caller callee target) : target ∈ f.outline.callables := by
  cases h with
  | itself hmem => exact hmem
  | sameClass _ _ _ hqualified => exact hqualified

/-- A callee that resolves in the caller's own file resolves to nothing
else. -/
theorem ResolvesWithin.eq_of_resolves {files : List FileOutline} {f : FileOutline}
    {caller callee target q t : String} (h : ResolvesWithin f caller callee target)
    (hq : Resolves files f caller callee q t) : q = f.path ∧ t = target := by
  cases hq with
  | within h' =>
    rw [← localTarget?_eq_some] at h h'
    rw [h, Option.some.injEq] at h'
    exact ⟨rfl, h'.symm⟩
  | first hnone => exact (hnone target h).elim

/-! ## The files with callables -/

/-- The files that are drawn. -/
def drawn (files : List FileOutline) : List FileOutline :=
  files.filter fun f => f.outline.callables ≠ []

theorem drawnNames_entries {files : List FileOutline} (hpaths : (files.map (·.path)).Nodup) :
    (drawnNames files).entries = (drawn files).map fun f => (f.path, f.outline.callables) := by
  apply Table.entries_ofList
  rw [List.map_map]
  exact hpaths.sublist (List.filter_sublist.map _)

/-- The first file that lists a callee, among those drawn or among all. -/
theorem find?_drawnNames {files : List FileOutline} (hpaths : (files.map (·.path)).Nodup)
    (callee : String) :
    (drawnNames files).entries.find? (fun e => callee ∈ e.2)
      = (files.find? fun g => callee ∈ g.outline.callables).map fun g =>
          (g.path, g.outline.callables) := by
  rw [drawnNames_entries hpaths, List.find?_map, drawn, List.find?_filter]
  congr 2
  funext g
  by_cases h : callee ∈ g.outline.callables
  · simp [h, List.ne_nil_of_mem h]
  · simp [h]

/-- A file that is listed is found with its callables, unless it has none. -/
theorem get?_drawnNames {files : List FileOutline} (hpaths : (files.map (·.path)).Nodup)
    {f : FileOutline} (hf : f ∈ files) :
    (drawnNames files).get? f.path
      = if f.outline.callables = [] then none else some f.outline.callables := by
  have hkeys : (drawnNames files).keys = (drawn files).map (·.path) := by
    rw [Table.keys, drawnNames_entries hpaths, List.map_map]
    rfl
  by_cases hnil : f.outline.callables = []
  · rw [if_pos hnil, Table.get?_eq_none_iff, hkeys]
    intro hmem
    obtain ⟨g, hg, hpath⟩ := List.mem_map.mp hmem
    obtain ⟨hg, hcallables⟩ := List.mem_filter.mp hg
    rw [List.inj_on_of_nodup_map hpaths hg hf hpath] at hcallables
    simp [hnil] at hcallables
  · have hentry : (f.path, f.outline.callables) ∈ (drawnNames files).entries := by
      rw [drawnNames_entries hpaths]
      exact List.mem_map.mpr ⟨f, List.mem_filter.mpr ⟨hf, by simp [hnil]⟩, rfl⟩
    rw [if_neg hnil]
    apply Table.get?_of_mem_entries _ hentry
    rw [hkeys]
    exact hpaths.sublist (List.filter_sublist.map _)

/-! ## Edges -/

theorem resolve?_eq_some {files : List FileOutline} (hpaths : (files.map (·.path)).Nodup)
    {f : FileOutline} {caller callee id : String} :
    resolve? (drawnNames files) f.path f.outline.callables caller callee = some id ↔
      ∃ q t, Resolves files f caller callee q t ∧ id = memberId q t := by
  unfold resolve?
  cases hlocal : localTarget? f.outline.callables caller callee with
  | some target =>
    have hwithin := localTarget?_eq_some.mp hlocal
    constructor
    · intro h
      cases h
      exact ⟨f.path, target, .within hwithin, rfl⟩
    · rintro ⟨q, t, hresolves, rfl⟩
      obtain ⟨rfl, rfl⟩ := hwithin.eq_of_resolves hresolves
      rfl
  | none =>
    have hnone : ∀ target, ¬ ResolvesWithin f caller callee target := by
      intro target h
      rw [localTarget?_eq_some.mpr h] at hlocal
      cases hlocal
    dsimp only
    rw [find?_drawnNames hpaths]
    simp only [Option.map_map, Option.map_eq_some_iff, Function.comp_apply]
    constructor
    · rintro ⟨g, hg, rfl⟩
      obtain ⟨hcallee, before, after, hsplit, hbefore⟩ := List.find?_eq_some_iff_append.mp hg
      exact ⟨g.path, callee, .first hnone hsplit (by simpa using hbefore) (by simpa using hcallee),
        rfl⟩
    · rintro ⟨q, t, hresolves, rfl⟩
      cases hresolves with
      | within h => exact (hnone t h).elim
      | first _ hsplit hbefore hcallee =>
        refine ⟨_, List.find?_eq_some_iff_append.mpr ?_, rfl⟩
        exact ⟨by simpa using hcallee, _, _, hsplit, by simpa using hbefore⟩

theorem mem_listedCalls {names : List String} {o : Outline} {caller callee : String} :
    (caller, callee) ∈ listedCalls names o ↔
      caller ∈ names ∧ ∃ callees, (caller, callees) ∈ o.calls.entries ∧ callee ∈ callees := by
  simp only [listedCalls, List.mem_flatMap, List.mem_filter, List.mem_map, Prod.mk.injEq,
    decide_eq_true_eq]
  constructor
  · rintro ⟨e, ⟨he, hmem⟩, k, hk, rfl, rfl⟩
    exact ⟨hmem, e.2, he, hk⟩
  · rintro ⟨hmem, callees, he, hk⟩
    exact ⟨(caller, callees), ⟨he, hmem⟩, callee, hk, rfl, rfl⟩

/-- The lines of the calls that start in a file are those of its calls that
resolve. -/
theorem mem_fileArrows {files : List FileOutline} (hpaths : (files.map (·.path)).Nodup)
    {f : FileOutline} (hf : f ∈ files) {line : String} :
    line ∈ fileArrows (drawnNames files) f ↔
      ∃ caller ∈ f.outline.callables, ∃ callee, Calls f caller callee ∧
        ∃ q t, Resolves files f caller callee q t ∧
          line = arrow (memberId f.path caller) (memberId q t) := by
  unfold fileArrows
  rw [get?_drawnNames hpaths hf]
  by_cases hnil : f.outline.callables = []
  · simp [hnil]
  rw [if_neg hnil]
  simp only [List.mem_filterMap, Option.map_eq_some_iff, resolve?_eq_some hpaths]
  constructor
  · rintro ⟨⟨caller, callee⟩, hlisted, id, ⟨q, t, hresolves, rfl⟩, rfl⟩
    obtain ⟨hcaller, hcalls⟩ := mem_listedCalls.mp hlisted
    exact ⟨caller, hcaller, callee, hcalls, q, t, hresolves, rfl⟩
  · rintro ⟨caller, hcaller, callee, hcalls, q, t, hresolves, rfl⟩
    exact ⟨(caller, callee), mem_listedCalls.mpr ⟨hcaller, hcalls⟩, _, ⟨q, t, hresolves, rfl⟩, rfl⟩

theorem mem_projectArrows {files : List FileOutline} (hpaths : (files.map (·.path)).Nodup)
    (line : String) : line ∈ distinct (files.flatMap (fileArrows (drawnNames files))) ↔
      ∃ f ∈ files, ∃ caller ∈ f.outline.callables, ∃ callee, Calls f caller callee ∧
        ∃ q t, Resolves files f caller callee q t ∧
          line = arrow (memberId f.path caller) (memberId q t) := by
  rw [mem_distinct, List.mem_flatMap]
  constructor
  · rintro ⟨f, hf, hline⟩
    exact ⟨f, hf, (mem_fileArrows hpaths hf).mp hline⟩
  · rintro ⟨f, hf, hline⟩
    exact ⟨f, hf, (mem_fileArrows hpaths hf).mpr hline⟩

/-! ## Nodes -/

/-- The nodes of the diagram: the callables with their files. -/
def members (files : List FileOutline) : List (String × String) :=
  files.flatMap fun f => f.outline.callables.map fun name => (f.path, name)

theorem mem_members {files : List FileOutline} {p name : String} :
    (p, name) ∈ members files ↔ ∃ f ∈ files, f.path = p ∧ name ∈ f.outline.callables := by
  simp only [members, List.mem_flatMap, List.mem_map, Prod.mk.injEq]
  constructor
  · rintro ⟨f, hf, n, hn, rfl, rfl⟩
    exact ⟨f, hf, rfl, hn⟩
  · rintro ⟨f, hf, rfl, hn⟩
    exact ⟨f, hf, name, hn, rfl, rfl⟩

theorem Resolves.mem_members {files : List FileOutline} {f : FileOutline} (hf : f ∈ files)
    {caller callee q t : String} (h : Resolves files f caller callee q t) :
    (q, t) ∈ members files := by
  cases h with
  | within h => exact Diagram.mem_members.mpr ⟨f, hf, rfl, h.mem⟩
  | first _ hsplit _ hcallee =>
    exact Diagram.mem_members.mpr ⟨_, by rw [hsplit]; simp, rfl, hcallee⟩

theorem nodup_members {files : List FileOutline} (hpaths : (files.map (·.path)).Nodup) :
    (members files).Nodup := by
  refine List.nodup_flatMap.mpr ⟨?_, ?_⟩
  · intro f _
    exact (nodup_distinct _).map fun a b h => (Prod.mk.inj h).2
  · refine (List.pairwise_map.mp hpaths).imp ?_
    intro f g hne m hm hm'
    obtain ⟨_, -, rfl⟩ := List.mem_map.mp hm
    obtain ⟨_, -, heq⟩ := List.mem_map.mp hm'
    exact hne (Prod.mk.inj heq).1.symm

/-! ## Lines -/

/-- The lines of the diagram of several files: its kind, the clusters, and the
calls. -/
def projectLines (files : List FileOutline) : List String :=
  "flowchart TD" :: files.flatMap fileCluster
    ++ distinct (files.flatMap (fileArrows (drawnNames files)))

theorem fileCluster_eq {f : FileOutline} (h : f.outline.callables ≠ []) :
    fileCluster f
      = cluster (idOf f.path) f.path (f.outline.callables.map fun n => (memberId f.path n, n)) := by
  unfold fileCluster
  split
  · next hnil => exact absurd hnil h
  · rfl

theorem fileCluster_of_nil {f : FileOutline} (h : f.outline.callables = []) :
    fileCluster f = [] := by
  simp [fileCluster, h]

theorem clusterIds_fileCluster (f : FileOutline) :
    clusterIds (fileCluster f) = if f.outline.callables = [] then [] else [idOf f.path] := by
  by_cases h : f.outline.callables = []
  · rw [fileCluster_of_nil h, if_pos h]
    rfl
  · rw [fileCluster_eq h, clusterIds_cluster (isId_idOf _), if_neg h]

theorem nodeIds_fileCluster (f : FileOutline) :
    nodeIds (fileCluster f) = f.outline.callables.map (memberId f.path) := by
  by_cases h : f.outline.callables = []
  · rw [fileCluster_of_nil h, h]
    rfl
  · rw [fileCluster_eq h, nodeIds_cluster _ _ (by simp [isId_memberId]), List.map_map]
    rfl

theorem edges_fileCluster (f : FileOutline) : edges (fileCluster f) = [] := by
  by_cases h : f.outline.callables = []
  · rw [fileCluster_of_nil h]
    rfl
  · rw [fileCluster_eq h, edges_cluster]

/-- The first line is passed over. -/
theorem filterMap_projectLines {β : Type} (read : String → Option β)
    (hkind : read "flowchart TD" = none) (files : List FileOutline) :
    (projectLines files).filterMap read
      = (files.flatMap fun f => (fileCluster f).filterMap read)
        ++ (distinct (files.flatMap (fileArrows (drawnNames files)))).filterMap read := by
  rw [projectLines, List.cons_append, List.filterMap_cons_none hkind, List.filterMap_append,
    List.filterMap_flatMap]

/-- The lines of a cluster stand together. -/
theorem fileCluster_infix {files : List FileOutline} {f : FileOutline} (hf : f ∈ files) :
    ∃ before after, projectLines files = before ++ fileCluster f ++ after := by
  unfold projectLines
  generalize distinct (files.flatMap (fileArrows (drawnNames files))) = arrows
  obtain ⟨l, r, rfl⟩ := List.append_of_mem hf
  exact ⟨"flowchart TD" :: l.flatMap fileCluster, r.flatMap fileCluster ++ arrows, by simp⟩

theorem edges_projectLines (files : List FileOutline) : edges (projectLines files)
    = (distinct (files.flatMap (fileArrows (drawnNames files)))).filterMap edge? := by
  have hclusters : (files.flatMap fun f => (fileCluster f).filterMap edge?) = [] :=
    List.flatMap_eq_nil_iff.mpr fun f _ => edges_fileCluster f
  rw [edges, filterMap_projectLines edge? (by decide), hclusters, List.nil_append]

section

variable {files : List FileOutline} (hpaths : (files.map (·.path)).Nodup)
include hpaths

/-- The lines after the clusters are those of calls. -/
theorem exists_arrow {line : String}
    (h : line ∈ distinct (files.flatMap (fileArrows (drawnNames files)))) :
    ∃ p c q t, line = arrow (memberId p c) (memberId q t) := by
  obtain ⟨f, -, caller, -, callee, -, q, t, -, rfl⟩ := (mem_projectArrows hpaths line).mp h
  exact ⟨f.path, caller, q, t, rfl⟩

theorem clusterIds_projectLines :
    clusterIds (projectLines files) = (drawn files).map fun f => idOf f.path := by
  have harrows : (distinct (files.flatMap (fileArrows (drawnNames files)))).filterMap clusterId?
      = [] := by
    refine List.filterMap_eq_nil_iff.mpr fun line hline => ?_
    obtain ⟨p, c, q, t, rfl⟩ := exists_arrow hpaths hline
    exact clusterId?_arrow (isId_memberId p c) _
  have hclusters : ∀ l : List FileOutline, (l.flatMap fun f => clusterIds (fileCluster f))
      = (drawn l).map fun f => idOf f.path := by
    intro l
    induction l with
    | nil => rfl
    | cons f l ih =>
      rw [List.flatMap_cons, ih, clusterIds_fileCluster, drawn, drawn, List.filter_cons]
      by_cases h : f.outline.callables = [] <;> simp [h]
  rw [clusterIds, filterMap_projectLines clusterId? (by decide), harrows, List.append_nil]
  exact hclusters files

theorem nodeIds_projectLines :
    nodeIds (projectLines files) = (members files).map fun m => memberId m.1 m.2 := by
  have harrows : (distinct (files.flatMap (fileArrows (drawnNames files)))).filterMap nodeId?
      = [] := by
    refine List.filterMap_eq_nil_iff.mpr fun line hline => ?_
    obtain ⟨p, c, q, t, rfl⟩ := exists_arrow hpaths hline
    exact nodeId?_arrow (isId_memberId p c) _
  have hnodes : ∀ f, (fileCluster f).filterMap nodeId?
      = f.outline.callables.map (memberId f.path) := nodeIds_fileCluster
  rw [nodeIds, filterMap_projectLines nodeId? (by decide), harrows, List.append_nil, members,
    List.map_flatMap]
  simp only [hnodes, List.map_map]
  rfl

/-- The calls that are drawn are those of callables that resolve. -/
theorem mem_edges_projectLines {p c q t : String} :
    (memberId p c, memberId q t) ∈ edges (projectLines files) ↔
      ∃ f ∈ files, f.path = p ∧ c ∈ f.outline.callables ∧
        ∃ callee, Calls f c callee ∧ Resolves files f c callee q t := by
  rw [edges_projectLines, List.mem_filterMap]
  constructor
  · rintro ⟨line, hline, hread⟩
    rw [eq_arrow_of_edge? hread, mem_projectArrows hpaths] at hline
    obtain ⟨f, hf, caller, hcaller, callee, hcalls, q', t', hresolves, heq⟩ := hline
    obtain ⟨hfrom, hto⟩ := arrow_inj (isId_memberId _ _) (isId_memberId _ _) heq
    obtain ⟨rfl, rfl⟩ := memberId_inj hfrom
    obtain ⟨rfl, rfl⟩ := memberId_inj hto
    exact ⟨f, hf, rfl, hcaller, callee, hcalls, hresolves⟩
  · rintro ⟨f, hf, rfl, hcaller, callee, hcalls, hresolves⟩
    refine ⟨arrow (memberId f.path c) (memberId q t), ?_, edge?_arrow (isId_memberId _ _) _⟩
    exact (mem_projectArrows hpaths _).mpr ⟨f, hf, c, hcaller, callee, hcalls, q, t, hresolves, rfl⟩

/-- A call that is drawn is one between callables. -/
theorem exists_of_mem_edges_projectLines {e : String × String}
    (h : e ∈ edges (projectLines files)) :
    ∃ p c q t, e = (memberId p c, memberId q t) := by
  rw [edges_projectLines] at h
  obtain ⟨line, hline, hread⟩ := List.mem_filterMap.mp h
  obtain ⟨p, c, q, t, rfl⟩ := exists_arrow hpaths hline
  rw [edge?_arrow (isId_memberId p c)] at hread
  exact ⟨p, c, q, t, (Option.some.inj hread).symm⟩

/-- A line opens or ends a cluster, declares a node or draws a call, but for the
first. -/
theorem line_cases {line : String} (hline : line ∈ projectLines files) :
    line = "flowchart TD" ∨ line = "  end" ∨ (clusterId? line).isSome ∨ (nodeId? line).isSome ∨
      (edge? line).isSome := by
  rw [projectLines, List.cons_append, List.mem_cons, List.mem_append] at hline
  rcases hline with rfl | hline | hline
  · exact Or.inl rfl
  · obtain ⟨f, -, hline⟩ := List.mem_flatMap.mp hline
    by_cases h : f.outline.callables = []
    · rw [fileCluster_of_nil h] at hline
      cases hline
    rw [fileCluster_eq h] at hline
    rcases mem_cluster hline with rfl | ⟨n, -, rfl⟩ | rfl
    · simp [clusterId?, String.toList_append]
    · simp [nodeId?, String.toList_append]
    · exact Or.inr (Or.inl rfl)
  · obtain ⟨p, c, q, t, rfl⟩ := exists_arrow hpaths hline
    simp [edge?_arrow (isId_memberId p c)]

theorem nodup_declaredIds_projectLines : (declaredIds (projectLines files)).Nodup := by
  rw [declaredIds, clusterIds_projectLines hpaths, nodeIds_projectLines hpaths]
  refine List.Nodup.append ?_ ?_ ?_
  · have hdrawn : ((drawn files).map (·.path)).Nodup :=
      hpaths.sublist (List.filter_sublist.map _)
    have hids := hdrawn.map (f := idOf) fun _ _ h => idOf_inj h
    rwa [List.map_map] at hids
  · apply (nodup_members hpaths).map
    intro a b h
    exact Prod.ext_iff.mpr (memberId_inj h)
  · intro id hcluster hnode
    obtain ⟨f, -, rfl⟩ := List.mem_map.mp hcluster
    obtain ⟨m, -, heq⟩ := List.mem_map.mp hnode
    exact memberId_ne_idOf _ _ _ heq

theorem unbroken_projectLines
    (htitles : ∀ f ∈ files, Unbroken f.path ∧ ∀ name ∈ f.outline.callables, Unbroken name) :
    ∀ line ∈ projectLines files, Unbroken line := by
  intro line hline
  rw [projectLines, List.cons_append, List.mem_cons, List.mem_append] at hline
  rcases hline with rfl | hline | hline
  · simp [Unbroken]
  · obtain ⟨f, hf, hline⟩ := List.mem_flatMap.mp hline
    by_cases h : f.outline.callables = []
    · rw [fileCluster_of_nil h] at hline
      cases hline
    obtain ⟨hpath, hnames⟩ := htitles f hf
    rw [fileCluster_eq h] at hline
    refine unbroken_cluster (unbroken_idOf f.path) hpath ?_ hline
    intro n hn
    obtain ⟨name, hname, rfl⟩ := List.mem_map.mp hn
    exact ⟨unbroken_memberId f.path name, hnames name hname⟩
  · obtain ⟨p, c, q, t, rfl⟩ := exists_arrow hpaths hline
    exact unbroken_arrow (unbroken_memberId _ _) (unbroken_memberId _ _)

end

/-! ## The diagram -/

/-- The diagram of several files: what its lines declare and draw. -/
structure ExactDiagram (files : List FileOutline) : Prop where
  text : ofProject files = "\n".intercalate (projectLines files)
  /-- A cluster for every file with callables, and a node for every callable. -/
  clusters : clusterIds (projectLines files) = (drawn files).map fun f => idOf f.path
  nodes : nodeIds (projectLines files) = (members files).map fun m => memberId m.1 m.2
  /-- The nodes of a file stand in its cluster. -/
  grouped : ∀ f ∈ drawn files, ∃ before block after,
    projectLines files = before ++ block ++ after ∧
      block.head? = some ("  subgraph " ++ titled (idOf f.path) f.path) ∧
      block.getLast? = some "  end" ∧ clusterIds block = [idOf f.path] ∧
      nodeIds block = f.outline.callables.map (memberId f.path)
  /-- There are no lines other than those that can be read, but for the first and
  the ends of clusters. -/
  others : ∀ line ∈ projectLines files, line = "flowchart TD" ∨ line = "  end" ∨
    (clusterId? line).isSome ∨ (nodeId? line).isSome ∨ (edge? line).isSome
  /-- Each cluster and each node has an identifier of its own. -/
  nodup_declared : (declaredIds (projectLines files)).Nodup
  nodup_edges : (edges (projectLines files)).Nodup
  /-- Both ends of an edge are nodes. -/
  ends : ∀ e ∈ edges (projectLines files),
    e.1 ∈ nodeIds (projectLines files) ∧ e.2 ∈ nodeIds (projectLines files)
  /-- The edges are the calls from callables that resolve. -/
  mem_iff : ∀ p c q t, (memberId p c, memberId q t) ∈ edges (projectLines files) ↔
    ∃ f ∈ files, f.path = p ∧ c ∈ f.outline.callables ∧
      ∃ callee, Calls f c callee ∧ Resolves files f c callee q t
  /-- A callee that resolves in the caller's own file gives no edge to
  another. -/
  within : ∀ f ∈ files, ∀ c callee target, ResolvesWithin f c callee target →
    ∀ q t, Resolves files f c callee q t → q = f.path ∧ t = target
  /-- The lines can be read off the text when no title is broken. -/
  readable : (∀ f ∈ files, Unbroken f.path ∧ ∀ name ∈ f.outline.callables, Unbroken name) →
    (ofProject files).toList.splitOn '\n' = (projectLines files).map String.toList

/-- The diagram of files with different paths is exact. -/
theorem exactDiagram_ofProject (files : List FileOutline)
    (hpaths : (files.map (·.path)).Nodup) : ExactDiagram files := by
  have htext : ofProject files = "\n".intercalate (projectLines files) := rfl
  constructor
  case text => exact htext
  case clusters => exact clusterIds_projectLines hpaths
  case nodes => exact nodeIds_projectLines hpaths
  case grouped =>
    intro f hf
    obtain ⟨hf, hdrawn⟩ := List.mem_filter.mp hf
    have hcallables : f.outline.callables ≠ [] := by simpa using hdrawn
    obtain ⟨before, after, hlines⟩ := fileCluster_infix hf
    refine ⟨before, fileCluster f, after, hlines, ?_, ?_, ?_, nodeIds_fileCluster f⟩
    · rw [fileCluster_eq hcallables]
      rfl
    · rw [fileCluster_eq hcallables, cluster, List.getLast?_concat]
    · rw [clusterIds_fileCluster, if_neg hcallables]
  case others => exact fun line hline => line_cases hpaths hline
  case nodup_declared => exact nodup_declaredIds_projectLines hpaths
  case nodup_edges =>
    rw [edges_projectLines]
    refine (nodup_distinct _).filterMap fun line line' e he he' => ?_
    rw [eq_arrow_of_edge? he, eq_arrow_of_edge? he']
  case ends =>
    intro e he
    obtain ⟨p, c, q, t, rfl⟩ := exists_of_mem_edges_projectLines hpaths he
    obtain ⟨f, hf, rfl, hcaller, callee, -, hresolves⟩ := (mem_edges_projectLines hpaths).mp he
    rw [nodeIds_projectLines hpaths]
    exact ⟨List.mem_map.mpr ⟨(f.path, c), mem_members.mpr ⟨f, hf, rfl, hcaller⟩, rfl⟩,
      List.mem_map.mpr ⟨(q, t), hresolves.mem_members hf, rfl⟩⟩
  case mem_iff => exact fun p c q t => mem_edges_projectLines hpaths
  case within =>
    intro f _ c callee target hwithin q t hresolves
    exact hwithin.eq_of_resolves hresolves
  case readable =>
    intro htitles
    rw [htext, splitOn_lines (by simp [projectLines]) (unbroken_projectLines hpaths htitles)]

/-- Two files, with a call to a method of the same class, one across and one
that goes nowhere, and a third file without callables. -/
def sampleFiles : List FileOutline :=
  [⟨"lib.js", { functions := [⟨"b", "", 1, 1, ""⟩, ⟨"c", "", 2, 2, ""⟩] }⟩,
    ⟨"types.ts", {}⟩,
    ⟨"app.js", {
      classes := [⟨"K", 1, 4, none, "", [⟨"a", "", 2, false, .method, ""⟩,
        ⟨"b", "", 3, false, .method, ""⟩]⟩]
      calls := ⟨[("K.a", ["b", "c", "d", "K.b"])]⟩ }⟩]

theorem exactDiagram_ofProject_sample :
    ((sampleFiles.map (·.path)).Nodup ∧ ExactDiagram sampleFiles) ∧
      clusterIds (projectLines sampleFiles) = ["id_lib_46_js", "id_app_46_js"] ∧
      nodeIds (projectLines sampleFiles) = ["id_lib_46_js_id_b", "id_lib_46_js_id_c",
        "id_app_46_js_id_K_46_a", "id_app_46_js_id_K_46_b"] ∧
      edges (projectLines sampleFiles) = [("id_app_46_js_id_K_46_a", "id_app_46_js_id_K_46_b"),
        ("id_app_46_js_id_K_46_a", "id_lib_46_js_id_c")] := by
  have h : (sampleFiles.map (·.path)).Nodup := by decide
  exact ⟨⟨h, exactDiagram_ofProject sampleFiles h⟩, by decide +kernel⟩

end CodeAtlas.Diagram
