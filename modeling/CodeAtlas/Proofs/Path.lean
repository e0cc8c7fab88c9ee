import CodeAtlas.Path
import CodeAtlas.Proofs.Text
/-
  A path that is written and read again.

  The components of a path are not empty, not `.` and hold no slash, so
  writing a path with slashes between them and reading it again gives the same
  components (`components_toString`). Hence the name of a path, and the name
  of its folder, read as themselves.
-/

namespace CodeAtlas.Path

open CodeAtlas.Text

/-- A text that can be a component of a path. -/
structure IsComponent (s : String) : Prop where
  ne_empty : s ≠ ""
  ne_dot : s ≠ "."
  no_slash : '/' ∉ s.toList

theorem isComponent_of_mem_components {cs : List Char} {s : String} (h : s ∈ components cs) :
    IsComponent s := by
  obtain ⟨hmem, hkeep⟩ := List.mem_filter.mp h
  obtain ⟨part, hpart, rfl⟩ := List.mem_map.mp hmem
  have hkeep : String.ofList part ≠ "" ∧ String.ofList part ≠ "." := by simpa using hkeep
  refine ⟨hkeep.1, hkeep.2, ?_⟩
  rw [String.toList_ofList]
  exact (mem_splitOn hpart).1

/-- Parts with slashes between them are the parts between the slashes. -/
theorem split_intercalate {parts : List String} (hne : parts ≠ [])
    (h : ∀ s ∈ parts, '/' ∉ s.toList) :
    (("/".intercalate parts).toList.splitOn '/').map String.ofList = parts := by
  rw [splitOn_intercalate rfl hne h, map_ofList_map_toList]

/-- Components with slashes between them are read back. -/
theorem components_intercalate {parts : List String} (h : ∀ s ∈ parts, IsComponent s) :
    components ("/".intercalate parts).toList = parts := by
  have hkeep : parts.filter (fun s => s ≠ "" ∧ s ≠ ".") = parts := by
    apply List.filter_eq_self.mpr
    intro s hs
    simpa using ⟨(h s hs).ne_empty, (h s hs).ne_dot⟩
  cases parts with
  | nil => decide
  | cons first rest =>
    rw [components, split_intercalate (by simp) fun s hs => (h s hs).no_slash]
    exact hkeep

/-- A slash in front adds no component. -/
theorem components_slash (cs : List Char) : components ('/' :: cs) = components cs := by
  have hsplit : ('/' :: cs).splitOn '/' = [] :: cs.splitOn '/' := by
    rw [List.splitOn, List.splitOnP_cons_eq_if_modifyHead]
    rfl
  rw [components, hsplit]
  rfl

theorem anchor_ofString (s : String) :
    (ofString s).anchor = "" ∨ (ofString s).anchor = "/" ∨ (ofString s).anchor = "//" := by
  simp only [ofString]
  split <;> simp

/-- A path is read back from its text. -/
theorem components_toString {p : Path} (hparts : ∀ s ∈ p.parts, IsComponent s)
    (hanchor : p.anchor = "" ∨ p.anchor = "/" ∨ p.anchor = "//") :
    components p.toString.toList = p.parts := by
  unfold toString
  split
  · next h =>
    rw [h.2]
    decide
  · rw [String.toList_append]
    rcases hanchor with hanchor | hanchor | hanchor
    · rw [hanchor]
      exact components_intercalate hparts
    · rw [hanchor]
      exact (components_slash _).trans (components_intercalate hparts)
    · rw [hanchor]
      exact (components_slash _).trans ((components_slash _).trans (components_intercalate hparts))

theorem parts_ofString (s : String) : (ofString s).parts = components s.toList := rfl

/-- The folder of a path that is written has the name of the folder. -/
theorem name_ofString_parent (s : String) :
    (ofString (ofString s).parent.toString).name = (ofString s).parent.name := by
  have hparts : ∀ part ∈ (ofString s).parent.parts, IsComponent part := fun part hpart =>
    isComponent_of_mem_components (List.dropLast_subset _ hpart)
  rw [name, name, parts_ofString, components_toString hparts (anchor_ofString s)]

/-- The name of a path is the name of the path that it is. -/
theorem name_ofString_name (s : String) :
    (ofString (ofString s).name).name = (ofString s).name := by
  rw [name, name, parts_ofString]
  cases hlast : (ofString s).parts.getLast? with
  | none => decide
  | some part =>
    have hpart : IsComponent part := isComponent_of_mem_components (List.mem_of_getLast? hlast)
    have hread := components_intercalate (fun s hs => List.mem_singleton.mp hs ▸ hpart)
    rw [String.intercalate_singleton] at hread
    rw [Option.getD_some, hread]
    rfl

/-- Components with slashes between them are read as a relative path. -/
theorem ofString_intercalate {parts : List String} (h : ∀ s ∈ parts, IsComponent s) :
    ofString ("/".intercalate parts) = ⟨"", parts⟩ := by
  have hfront : ("/".intercalate parts).toList.takeWhile (· = '/') = [] := by
    cases parts with
    | nil => decide
    | cons first rest =>
      have hfirst : IsComponent first := h first List.mem_cons_self
      obtain ⟨c, cs, hcs⟩ : ∃ c cs, first.toList = c :: cs := by
        cases hlist : first.toList with
        | nil => exact absurd (String.toList_eq_nil_iff.mp hlist) hfirst.ne_empty
        | cons c cs => exact ⟨c, cs, rfl⟩
      have hc : c ≠ '/' := by
        rintro rfl
        exact hfirst.no_slash (by rw [hcs]; exact List.mem_cons_self)
      have htext : ∃ cs', ("/".intercalate (first :: rest)).toList = c :: cs' := by
        by_cases hrest : rest = []
        · subst hrest
          rw [String.intercalate_singleton, hcs]
          exact ⟨cs, rfl⟩
        · rw [String.intercalate_cons_of_ne_nil hrest, String.toList_append, String.toList_append,
            hcs]
          exact ⟨_, rfl⟩
      obtain ⟨cs', hcs'⟩ := htext
      rw [hcs', List.takeWhile_cons_of_neg (by simpa using hc)]
  unfold ofString
  simp only [hfront, components_intercalate h]
  rfl

theorem afterCommon_append (top rest : List String) :
    afterCommon top (top ++ rest) = ([], rest) := by
  induction top with
  | nil => cases rest <;> rfl
  | cons s top ih => rw [List.cons_append, afterCommon, if_pos rfl, ih]

/-- Two lists are one beginning and what they still differ in. -/
theorem exists_common (as bs : List String) :
    ∃ common, as = common ++ (afterCommon as bs).1 ∧ bs = common ++ (afterCommon as bs).2 := by
  induction as generalizing bs with
  | nil => exact ⟨[], rfl, by cases bs <;> rfl⟩
  | cons a as ih =>
    cases bs with
    | nil => exact ⟨[], rfl, rfl⟩
    | cons b bs =>
      rw [afterCommon]
      by_cases h : a = b
      · obtain ⟨common, has, hbs⟩ := ih bs
        rw [if_pos h]
        exact ⟨a :: common, by rw [List.cons_append, ← has], by rw [List.cons_append, ← hbs, h]⟩
      · rw [if_neg h]
        exact ⟨[], rfl, rfl⟩

/-- The stem of a path holds no slash. -/
theorem slash_not_mem_stem (s : String) : '/' ∉ (ofString s).stem.toList := by
  have hname : '/' ∉ (ofString s).name.toList := by
    rw [name]
    cases hlast : (ofString s).parts.getLast? with
    | none => decide
    | some part => exact (isComponent_of_mem_components (List.mem_of_getLast? hlast)).no_slash
  intro hmem
  apply hname
  unfold stem splitName at hmem
  simp only at hmem
  split at hmem
  · rw [String.toList_ofList, List.mem_reverse] at hmem
    exact List.mem_reverse.mp
      ((List.dropWhile_sublist _).subset ((List.drop_sublist 1 _).subset hmem))
  · exact hmem

end CodeAtlas.Path
