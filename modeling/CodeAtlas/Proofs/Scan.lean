import CodeAtlas.Proofs.Disk.Plain
import CodeAtlas.Scan
import CodeAtlas.Settings.Basic
/-
  What a scan of a folder finds.

  `Within top k` says that the way from `top` down to `k` goes through no folder
  that is always passed over. Where there are no links, a scan from such a
  folder comes to such folders only, and every file that it finds lies in one
  (`found_of_below`, for any such `IsRegion`). Seen from `top` and taken from
  there again, a file that is found has its own plain name (`resolve_found`).
-/

namespace CodeAtlas.Scan

open CodeAtlas.Disk

/-! ## Folders that are not passed over -/

/-- The way from `top` down to `k` goes through no folder that is passed over. -/
def Within (top k : Place) : Prop :=
  top <+: k ∧ ∀ s ∈ k.drop top.length, s ∉ Settings.alwaysSkipped

instance (top k : Place) : Decidable (Within top k) :=
  inferInstanceAs (Decidable (_ ∧ _))

/-- A place in a folder that is not passed over. -/
def Reached (top q : Place) : Prop := q ≠ [] ∧ Within top q.dropLast

instance (top q : Place) : Decidable (Reached top q) := inferInstanceAs (Decidable (_ ∧ _))

variable {top k q way : Place} {name : String}

theorem within_append : Within top (top ++ way) ↔ ∀ s ∈ way, s ∉ Settings.alwaysSkipped := by
  simp [Within]

theorem within_self (top : Place) : Within top top :=
  ⟨List.prefix_refl top, by simp⟩

theorem within_concat : Within top (top ++ way ++ [name]) ↔
    Within top (top ++ way) ∧ name ∉ Settings.alwaysSkipped := by
  rw [List.append_assoc, within_append, within_append, List.forall_mem_append,
    List.forall_mem_singleton]

theorem Within.child (h : Within top k) (hname : name ∉ Settings.alwaysSkipped) :
    Within top (k ++ [name]) := by
  obtain ⟨way, rfl⟩ := h.1
  exact within_concat.mpr ⟨h, hname⟩

theorem reached_concat : Reached top (k ++ [name]) ↔ Within top k := by
  simp [Reached]

theorem Reached.ne_nil (h : Reached top q) : q ≠ [] := h.1

theorem Reached.below (h : Reached top q) : top <+: q :=
  h.2.1.trans (List.dropLast_prefix q)

theorem Reached.ne_top (h : Reached top q) : q ≠ top := by
  rintro rfl
  have hlength := h.2.1.length_le
  have hpos := List.length_pos_iff.mpr h.ne_nil
  rw [List.length_dropLast] at hlength
  omega

/-- Below one name of a folder the way goes on from there. -/
theorem within_below (hbelow : k ++ [name] <+: q) :
    Within k q ↔ name ∉ Settings.alwaysSkipped ∧ Within (k ++ [name]) q := by
  obtain ⟨rest, rfl⟩ := hbelow
  rw [within_append, List.append_assoc, within_append, List.singleton_append, List.forall_mem_cons]

/-- Below one name of a folder lies what is reached from there. -/
theorem reached_below (hbelow : k ++ [name] <+: q) (hne : q ≠ k ++ [name]) :
    Reached k q ↔ name ∉ Settings.alwaysSkipped ∧ Reached (k ++ [name]) q := by
  obtain ⟨rest, rfl⟩ := hbelow
  have hrest : rest ≠ [] := by
    rintro rfl
    exact hne (List.append_nil _)
  rw [← List.dropLast_concat_getLast hrest, ← List.append_assoc, reached_concat, reached_concat,
    within_append, List.append_assoc, within_append, List.singleton_append, List.forall_mem_cons]

/-! ## Scanning without links -/

/-- Folders that a scan does not leave: it goes down to every folder that is not
excluded, and meets no link. -/
structure IsRegion (d : Disk) (excluded : List String) (region : Place → Prop) : Prop where
  down : ∀ {k name}, region k → name ∉ excluded → region (k ++ [name])
  links : ∀ {k name t}, region k → d.entry? (k ++ [name]) ≠ some (.link t)

/-- A file that a scan finds: it lies in a folder of the region, it can be opened,
and it is seen from `base`. -/
def Found (d : Disk) (region : Place → Prop) (base : Path) (f : String) : Prop :=
  ∃ k name c, region k ∧ d.entry? (k ++ [name]) = some (.file c) ∧
    d.find (.ofPlace (k ++ [name])) = .ok (some (.file c)) ∧
    f = Path.relativeTo (.ofPlace d.cwd) (.ofPlace (k ++ [name])) base

/-- No entry at or below a place is a link. -/
def LinklessBelow (d : Disk) (top : Place) : Prop :=
  ∀ k t, top <+: k → d.entry? k ≠ some (.link t)

section

variable {d : Disk} {base : Path} {s s' : State} {down : Path → State → Except Trouble State}
  {excluded : List String} {region : Place → Prop}

theorem isRegion_within (hlinks : LinklessBelow d top) :
    IsRegion d Settings.alwaysSkipped (Within top) where
  down := Within.child
  links hk := hlinks _ _ (hk.1.trans (List.prefix_append _ _))

/-- The path to a place opens the entry there, if it opens anything. -/
theorem entry_of_find (hd : Sound d) (hlink : ∀ t, d.entry? k ≠ some (.link t)) {e : Entry}
    (hsome : (d.entry? k).isSome) (h : d.find (.ofPlace k) = .ok (some e)) :
    d.entry? k = some e := by
  obtain ⟨e', he'⟩ := Option.isSome_iff_exists.mp hsome
  obtain ⟨q, hq, he⟩ := find_eq_some.mp h
  have hplace : q = k :=
    hd.eq_of_locate (p := .ofPlace k) rfl he' (fun t ht => hlink t (ht ▸ he')) hq
  exact hplace ▸ he

/-- One entry adds what it is, or what is found below it. -/
theorem found_of_entry (hd : Sound d) (hregion : IsRegion d excluded region) (hk : region k)
    (hname : name ∈ d.namesAt k) (hs : ∀ f ∈ s.files, Found d region base f)
    (hdown : ∀ s', region (k ++ [name]) → d.entry? (k ++ [name]) = some .folder →
      down (.ofPlace (k ++ [name])) s = .ok s' → ∀ f ∈ s'.files, Found d region base f) :
    ∀ f ∈ (entry d ⟨base, excluded⟩ down (.ofPlace k) s name).files, Found d region base f := by
  have hopens : ∀ e, d.find (.ofPlace (k ++ [name])) = .ok (some e) →
      d.entry? (k ++ [name]) = some e := fun e =>
    entry_of_find hd (fun t => hregion.links hk) (mem_namesAt.mp hname)
  have hchild : (Path.ofPlace k).child name = .ofPlace (k ++ [name]) := rfl
  unfold entry
  simp only [hchild]
  cases hfind : d.find (.ofPlace (k ++ [name])) with
  | error t => exact hs
  | ok e =>
    rw [ok_bind]
    cases e with
    | none => exact hs
    | some e =>
      cases e with
      | folder =>
        simp only
        by_cases hskip : excluded.contains name
        · rw [if_pos hskip]
          exact hs
        · rw [if_neg hskip]
          have hbelow : region (k ++ [name]) := hregion.down hk (by simpa using hskip)
          cases hscan : down (.ofPlace (k ++ [name])) s with
          | error t => exact hs
          | ok s' => exact hdown s' hbelow (hopens _ hfind) hscan
      | file c =>
        simp only
        by_cases hsource : Language.isSource (.ofPlace (k ++ [name]))
        · rw [if_pos hsource]
          intro f hf
          rcases List.mem_append.mp hf with hf | hf
          · exact hs f hf
          · exact ⟨k, name, c, hk, hopens _ hfind, hfind, List.mem_singleton.mp hf⟩
        · rw [if_neg hsource]
          exact hs
      | link t => exact hs

/-- A scan from a folder of a region finds files in folders of the region only. -/
theorem found_of_below (hd : Sound d) (hregion : IsRegion d excluded region) {budget : Nat}
    (hk : region k) (hplace : ∀ f, d.locate (.ofPlace k) = .ok f → f = k)
    (hs : ∀ f ∈ s.files, Found d region base f)
    (h : below d ⟨base, excluded⟩ budget (.ofPlace k) s = .ok s') :
    ∀ f ∈ s'.files, Found d region base f := by
  induction budget generalizing k s s' with
  | zero =>
    obtain ⟨there, -, h⟩ := bind_eq_ok.mp h
    split at h <;> cases h <;> exact hs
  | succ budget ih =>
    obtain ⟨there, -, h⟩ := bind_eq_ok.mp h
    split at h
    · cases h
      exact hs
    obtain ⟨real, -, h⟩ := bind_eq_ok.mp h
    split at h
    · cases h
      exact hs
    cases hnames : d.names (.ofPlace k) with
    | error t =>
      simp only [hnames] at h
      cases h
      exact hs
    | ok names =>
      simp only [hnames] at h
      cases h
      obtain ⟨f, hf, -, -, rfl⟩ := names_eq_ok.mp hnames
      rw [hplace f hf]
      refine List.foldlRecOn (motive := fun s : State => ∀ f ∈ s.files, Found d region base f) _ _
        hs ?_
      intro s hs name hname
      refine found_of_entry hd hregion hk hname hs fun s' hbelow hfolder hscan => ?_
      exact ih hbelow (fun f => hd.eq_of_locate (p := .ofPlace (k ++ [name])) rfl hfolder (by simp))
        hs hscan

theorem found_of_folder (hd : Sound d) (hregion : IsRegion d excluded region) (hk : region k)
    (hplace : ∀ f, d.locate (.ofPlace k) = .ok f → f = k)
    (h : folder d (.ofPlace k) base excluded = .ok s) : ∀ f ∈ s.files, Found d region base f :=
  found_of_below hd hregion hk hplace (by simp) h

/-- A file that is found from `top` has its own plain name. -/
theorem resolve_found (hd : Sound d) {f : String} (h : Found d (Within top) (.ofPlace top) f) :
    ∃ q c, Reached top q ∧ d.entry? q = some (.file c) ∧
      d.resolve ((Path.ofPlace top).join (Path.ofString f)) = .ok (.ofPlace q) := by
  obtain ⟨k, name, c, hk, he, -, rfl⟩ := h
  refine ⟨k ++ [name], c, reached_concat.mpr hk, he, ?_⟩
  obtain ⟨way, rfl⟩ := hk.1
  rw [List.append_assoc] at he ⊢
  have hnames : ∀ s ∈ top ++ (way ++ [name]), IsName s := fun s hs => hd.isName (by rw [he]; rfl) hs
  have hjoin : (Path.ofPlace top).join ⟨"", way ++ [name]⟩ = .ofPlace (top ++ (way ++ [name])) := by
    rw [Path.join, if_neg (by simp [Path.isAbsolute])]
    rfl
  rw [Path.relativeTo_below (fun s hs => (hnames s hs).isStep) (by simp),
    Path.ofString_intercalate fun s hs => (hnames s (List.mem_append_right top hs)).toIsComponent,
    hjoin]
  exact hd.resolve_eq rfl he (by simp)

end

end CodeAtlas.Scan
