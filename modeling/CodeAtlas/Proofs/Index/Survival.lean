import CodeAtlas.Proofs.Analysis.Fits
import CodeAtlas.Proofs.Path
/-
  What an analysis finds survives the index.

  The index of one file is the index of its folder with that file alone, so it
  is read back as a table of one block (`read_renderAlone_eq`). The outline
  that an analysis gives of a clean tree can be written
  (`outlineFits_analyse`), and its line numbers are bounded by the length of
  the source (`numbersFit_analyse`); hence all its functions and methods are
  read back, in order (`read_renderAlone_analyse`).
-/

namespace CodeAtlas.Index

open CodeAtlas.Syntax CodeAtlas.Text CodeAtlas.Analysis

variable {path : String} {o : Outline}

/-- The one file of its index has the name of the path. -/
theorem baseName_alone (path : String) (o : Outline) :
    baseName ⟨(Path.ofString path).name, o⟩ = (Path.ofString path).name :=
  Path.name_ofString_name path

section

variable (hbase : Solid (Path.ofString path).name)
  (hfolder : Solid (Path.ofString path).parent.name)

include hfolder in
theorem oneLine_folder :
    OneLine (Path.ofString (Path.ofString path).parent.toString).name := by
  rw [Path.name_ofString_parent]
  exact hfolder.oneLine

include hbase in
theorem fits_alone (h : OutlineFits o) :
    ∀ f ∈ [(⟨(Path.ofString path).name, o⟩ : FileOutline)],
      Solid (baseName f) ∧ OutlineFits f.outline := by
  intro f hf
  cases List.mem_singleton.mp hf
  refine ⟨?_, h⟩
  rw [baseName_alone]
  exact hbase

include hbase hfolder in
/-- The index of one file is read as one block. -/
theorem read_renderAlone_eq (h : OutlineFits o) :
    read (renderAlone path o) = Table.ofList [((Path.ofString path).name,
      ⟨(Path.ofString path).name, Text.first descriptionWidth o.description,
        o.functions.map functionSignature, methodSignatures o.classes⟩)] := by
  have hread := read_render_eq (oneLine_folder hfolder) (fits_alone hbase h)
  rw [List.map_singleton, blockOf, baseName_alone] at hread
  exact hread

include hbase hfolder in
theorem read?_renderAlone_eq (h : OutlineFits o) (hn : NumbersFit o) :
    read? (renderAlone path o) = some (read (renderAlone path o)) := by
  apply read?_render_eq (oneLine_folder hfolder) (fits_alone hbase h)
  intro f hf
  cases List.mem_singleton.mp hf
  exact hn

end

/-- The outline that an analysis gives of a clean tree survives the index: the
base name of the path is the only key, and under it stand the functions and
the methods of the outline, in order. No number is too long for it unless the
source is. -/
theorem read_renderAlone_analyse (code path : String) (tree : SyntaxTree Span) (m : Outline)
    (hcode : LineFed code) (hclean : Clean (tree.locate code))
    (hbase : Solid (Path.ofString path).name)
    (hfolder : Solid (Path.ofString path).parent.name)
    (hm : analyse code (some path) tree = .ok m) :
    (read (renderAlone path m)).keys = [(Path.ofString path).name] ∧
      (read (renderAlone path m)).get? (Path.ofString path).name
        = some ⟨(Path.ofString path).name, Text.first descriptionWidth m.description,
            m.functions.map functionSignature, methodSignatures m.classes⟩ ∧
      (code.length + 1 < 10 ^ widthLimit →
        read? (renderAlone path m) = some (read (renderAlone path m))) := by
  have hfits : OutlineFits m := outlineFits_analyse hcode hclean hm
  have hread := read_renderAlone_eq hbase hfolder hfits
  refine ⟨?_, ?_, ?_⟩
  · rw [hread]
    rfl
  · rw [hread, Table.get?_ofList]
    simp
  · intro hlength
    exact read?_renderAlone_eq hbase hfolder hfits (numbersFit_analyse hm hlength)

theorem read_renderAlone_analyse_sample :
    LineFed sampleCode ∧ Clean (sampleTree.locate sampleCode) ∧
      Solid (Path.ofString "src/b.ts").name ∧ Solid (Path.ofString "src/b.ts").parent.name ∧
      analyse sampleCode (some "src/b.ts") sampleTree = .ok Analysis.sampleOutline ∧
      (read (renderAlone "src/b.ts" Analysis.sampleOutline)).keys = ["b.ts"] ∧
      (read (renderAlone "src/b.ts" Analysis.sampleOutline)).get? "b.ts"
        = some ⟨"b.ts", "Reads files.", [⟨"a", "p", 3, 3⟩, ⟨"b", "", 4, 4⟩],
            [⟨"[default].m", "", 5, 5⟩]⟩ ∧
      read? (renderAlone "src/b.ts" Analysis.sampleOutline)
        = some (read (renderAlone "src/b.ts" Analysis.sampleOutline)) := by
  -- One evaluation for all that reads the source, so that it is read once.
  have hsource : LineFed sampleCode ∧ Clean (sampleTree.locate sampleCode) ∧
      analyse sampleCode (some "src/b.ts") sampleTree = .ok Analysis.sampleOutline ∧
      sampleCode.length + 1 < 10 ^ widthLimit := by decide +kernel
  obtain ⟨hcode, hclean, hm, hlength⟩ := hsource
  have hbase : Solid (Path.ofString "src/b.ts").name := by decide +kernel
  have hfolder : Solid (Path.ofString "src/b.ts").parent.name := by decide +kernel
  have hname : (Path.ofString "src/b.ts").name = "b.ts" := by decide +kernel
  obtain ⟨hkeys, hget, hread⟩ :=
    read_renderAlone_analyse sampleCode "src/b.ts" sampleTree _ hcode hclean hbase hfolder hm
  rw [hname] at hkeys hget
  refine ⟨hcode, hclean, hbase, hfolder, hm, hkeys, ?_, hread hlength⟩
  rw [hget]
  decide +kernel

end CodeAtlas.Index
