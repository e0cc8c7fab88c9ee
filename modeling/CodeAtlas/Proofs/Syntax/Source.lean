import CodeAtlas.Syntax.Source
import CodeAtlas.Proofs.Fallible
import CodeAtlas.Proofs.Syntax.Cursor
/-
  The text of a node is a piece of its source.

  A range of bytes that is cut between characters is a piece of the source
  anyway (`takeBytes?`, `dropBytes?`). One that is cut inside a character is
  read as bytes, and then it is no text at all, unless it is empty: a range
  that begins inside a character begins with a byte that no character begins
  with, and a range that ends inside one lacks a byte that the decoder waits
  for. `textOf_subset` is the outcome, and `mem_text_locate` says it of the
  nodes of a tree.

  `answers_textOf` is the other side: a range that is cut between characters
  does have a text. `row_position_le` bounds the lines of a source by its
  length.
-/

namespace CodeAtlas.Syntax.Source

open CodeAtlas.Text

/-! ## Bytes of a source -/

/-- Bytes are listed from where the listing stands. -/
theorem loop_toList (done rest seen : List UInt8) :
    ByteArray.toList.loop ⟨⟨done ++ rest⟩⟩ done.length seen = seen.reverse ++ rest := by
  induction rest generalizing done seen with
  | nil =>
    rw [ByteArray.toList.loop, if_neg (by simp [ByteArray.size])]
    simp
  | cons b rest ih =>
    have hget : ByteArray.get! ⟨⟨done ++ b :: rest⟩⟩ done.length = b := by
      simp [ByteArray.get!]
    rw [ByteArray.toList.loop, if_pos (by simp [ByteArray.size]), hget]
    simpa using ih (done ++ [b]) (b :: seen)

theorem toList_eq_data (bs : ByteArray) : bs.toList = bs.data.toList := by
  obtain ⟨⟨l⟩⟩ := bs
  exact loop_toList [] l []

/-- The bytes of a text, character by character. -/
def encoded (cs : List Char) : List UInt8 := cs.flatMap String.utf8EncodeChar

theorem encoded_cons (c : Char) (cs : List Char) :
    encoded (c :: cs) = String.utf8EncodeChar c ++ encoded cs := List.flatMap_cons

theorem encoded_append (cs ds : List Char) : encoded (cs ++ ds) = encoded cs ++ encoded ds :=
  List.flatMap_append

theorem length_encoded_cons (c : Char) (cs : List Char) :
    (encoded (c :: cs)).length = c.utf8Size + (encoded cs).length := by
  rw [encoded_cons, List.length_append, String.length_utf8EncodeChar]

theorem toUTF8_toList_ofList (src : List Char) :
    (String.ofList src).toUTF8.toList = encoded src := by
  rw [String.toUTF8_eq_toByteArray, String.toByteArray_ofList, toList_eq_data, List.utf8Encode,
    List.toList_data_toByteArray, encoded]

theorem bytesOf_eq (src : List Char) (s : Span) :
    bytesOf src s = ((encoded src).drop s.start).take (s.stop - s.start) := by
  rw [bytesOf, toUTF8_toList_ofList]

/-- A byte that a character begins with, when `k` more bytes follow it. -/
def Leads (b : UInt8) (k : Nat) : Prop :=
  (k = 0 ∧ b.toNat < 0x80) ∨ (k = 1 ∧ 0xc0 ≤ b.toNat ∧ b.toNat < 0xe0) ∨
    (k = 2 ∧ 0xe0 ≤ b.toNat ∧ b.toNat < 0xf0) ∨ (k = 3 ∧ 0xf0 ≤ b.toNat)

/-- A byte inside a character. -/
def Follows (b : UInt8) : Prop := 0x80 ≤ b.toNat ∧ b.toNat < 0xc0

/-- A character is a byte that leads and the bytes that follow it. -/
theorem utf8EncodeChar_eq (c : Char) :
    ∃ b bs, String.utf8EncodeChar c = b :: bs ∧ Leads b bs.length ∧ ∀ x ∈ bs, Follows x := by
  unfold String.utf8EncodeChar Leads Follows
  dsimp only
  generalize c.val.toNat = v
  split
  · exact ⟨_, _, rfl, by simp; omega, by simp⟩
  split
  · exact ⟨_, _, rfl, by simp; omega, by simp; omega⟩
  split
  · exact ⟨_, _, rfl, by simp; omega, by simp; omega⟩
  · exact ⟨_, _, rfl, by simp; omega, by simp; omega⟩

/-! ## Bytes that are no text -/

/-- The decoder waits for as many bytes as the first one says. -/
theorem begin?_eq_some {offset k : Nat} {b : UInt8} {p : Utf8.Pending} (hb : Leads b k)
    (h : Utf8.begin? offset b = some p) : p.later.length + 1 = k := by
  unfold Leads at hb
  unfold Utf8.begin? at h
  dsimp only at h
  -- one case for each row of the table of first bytes
  split at h
  · cases h; simp; omega
  split at h
  · cases h; simp; omega
  split at h
  · cases h; simp; omega
  split at h
  · cases h; simp; omega
  split at h
  · cases h; simp; omega
  split at h
  · cases h; simp; omega
  split at h
  · cases h; simp; omega
  · cases h

/-- Bytes that end a character are all there, and what comes after them is
text. -/
theorem decodeFrom_pending {later : List (Nat × Nat)} {p : Utf8.Pending} (hp : p.later = later)
    {offset : Nat} {bs : List UInt8} {cs : List Char}
    (h : Utf8.decodeFrom offset (some p) bs = .ok cs) :
    later.length < bs.length ∧
      ∃ offset' cs', Utf8.decodeFrom offset' none (bs.drop (later.length + 1)) = .ok cs' := by
  induction later generalizing p offset bs with
  | nil =>
    cases bs with
    | nil => cases h
    | cons b bs =>
      unfold Utf8.decodeFrom at h
      dsimp only at h
      split at h
      · rw [hp] at h
        obtain ⟨cs', h, -⟩ := map_eq_ok.mp h
        exact ⟨Nat.succ_pos _, _, cs', h⟩
      · cases h
  | cons r later ih =>
    cases bs with
    | nil => cases h
    | cons b bs =>
      unfold Utf8.decodeFrom at h
      dsimp only at h
      split at h
      · rw [hp] at h
        obtain ⟨hlength, offset', cs', h⟩ := ih rfl h
        exact ⟨Nat.succ_lt_succ hlength, offset', cs', h⟩
      · cases h

/-- A byte that leads has all the bytes that follow it, and what comes after
them is text. -/
theorem decodeFrom_lead {offset k : Nat} {b : UInt8} {bs : List UInt8} {cs : List Char}
    (hb : Leads b k) (h : Utf8.decodeFrom offset none (b :: bs) = .ok cs) :
    k ≤ bs.length ∧ ∃ offset' cs', Utf8.decodeFrom offset' none (bs.drop k) = .ok cs' := by
  unfold Utf8.decodeFrom at h
  dsimp only at h
  split at h
  · next hsmall =>
    have hk : k = 0 := by
      unfold Leads at hb
      omega
    obtain ⟨cs', h, -⟩ := map_eq_ok.mp h
    subst hk
    exact ⟨Nat.zero_le _, _, cs', h⟩
  · split at h
    · cases h
    · next p hp =>
      have hk := begin?_eq_some hb hp
      obtain ⟨hlength, hrest⟩ := decodeFrom_pending rfl h
      rw [← hk]
      exact ⟨hlength, hrest⟩

theorem decodeFrom_follow {offset : Nat} {b : UInt8} {bs : List UInt8} {cs : List Char}
    (hb : Follows b) : Utf8.decodeFrom offset none (b :: bs) ≠ .ok cs := by
  intro h
  have hbegin : Utf8.begin? offset b = none := by
    unfold Follows at hb
    simp only [Utf8.begin?]
    repeat rw [if_neg (by omega)]
  unfold Utf8.decodeFrom at h
  dsimp only at h
  rw [if_neg (by unfold Follows at hb; omega), hbegin] at h
  cases h

/-! ## Ranges of a source -/

/-- The length of a character in bytes is that of its first byte and the bytes
that follow. -/
theorem utf8Size_eq {c : Char} {b : UInt8} {bs : List UInt8}
    (h : String.utf8EncodeChar c = b :: bs) : c.utf8Size = bs.length + 1 := by
  rw [← String.length_utf8EncodeChar, h]
  rfl

theorem takeBytes?_succ (n : Nat) (c : Char) (cs : List Char) :
    takeBytes? (n + 1) (c :: cs)
      = if c.utf8Size ≤ n + 1 then (takeBytes? (n + 1 - c.utf8Size) cs).map (c :: ·) else none :=
  rfl

theorem dropBytes?_succ (n : Nat) (c : Char) (cs : List Char) :
    dropBytes? (n + 1) (c :: cs)
      = if c.utf8Size ≤ n + 1 then dropBytes? (n + 1 - c.utf8Size) cs else none := rfl

/-- Bytes that end inside a character are no text. -/
theorem decodeFrom_take_ne_ok {n : Nat} {src : List Char} (h : takeBytes? n src = none)
    (offset : Nat) (cs : List Char) :
    Utf8.decodeFrom offset none ((encoded src).take n) ≠ .ok cs := by
  intro hok
  induction src generalizing n offset cs with
  | nil => cases n <;> cases h
  | cons c src ih =>
    obtain ⟨b, bs, hc, hlead, -⟩ := utf8EncodeChar_eq c
    have hsize := utf8Size_eq hc
    rw [encoded_cons, hc] at hok
    cases n with
    | zero => cases h
    | succ n =>
      rw [List.cons_append, List.take_succ_cons] at hok
      obtain ⟨hlength, offset', cs', hrest⟩ := decodeFrom_lead hlead hok
      rw [takeBytes?_succ] at h
      split at h
      · next hle =>
        -- the first character is whole, so the fault lies further on
        have hdrop : ((bs ++ encoded src).take n).drop bs.length
            = (encoded src).take (n + 1 - c.utf8Size) := by
          rw [List.drop_take, List.drop_left, hsize, Nat.add_sub_add_right]
        rw [hdrop] at hrest
        exact ih (Option.map_eq_none_iff.mp h) offset' cs' hrest
      · next hlt =>
        -- the first character is cut, but its first byte asks for all of it
        rw [List.length_take, List.length_append] at hlength
        omega

/-- Bytes that begin inside a character begin with one that follows. -/
theorem drop_encoded_of_none {n : Nat} {src : List Char} (h : dropBytes? n src = none) :
    ∃ b bs, (encoded src).drop n = b :: bs ∧ Follows b := by
  induction src generalizing n with
  | nil => cases n <;> cases h
  | cons c src ih =>
    obtain ⟨b, bs, hc, -, hfollow⟩ := utf8EncodeChar_eq c
    have hsize := utf8Size_eq hc
    rw [encoded_cons, hc]
    cases n with
    | zero => cases h
    | succ n =>
      rw [List.cons_append, List.drop_succ_cons]
      rw [dropBytes?_succ] at h
      split at h
      · next hle =>
        have hdrop : (bs ++ encoded src).drop n = (encoded src).drop (n + 1 - c.utf8Size) := by
          rw [List.drop_append, List.drop_eq_nil_of_le (by omega), hsize, Nat.add_sub_add_right]
          rfl
        rw [hdrop]
        exact ih h
      · next hlt =>
        have hn : n < bs.length := by omega
        rw [List.drop_append_of_le_length (Nat.le_of_lt hn), List.drop_eq_getElem_cons hn]
        exact ⟨_, _, rfl, hfollow _ (List.getElem_mem hn)⟩

/-- Bytes from between two characters on are those of the rest. -/
theorem dropBytes?_eq_some {n : Nat} {src rest : List Char} (h : dropBytes? n src = some rest) :
    (encoded src).drop n = encoded rest ∧ ∀ c ∈ rest, c ∈ src := by
  induction src generalizing n with
  | nil =>
    have hrest : rest = [] := by cases n <;> cases h <;> rfl
    rw [hrest]
    simp [encoded]
  | cons c src ih =>
    cases n with
    | zero =>
      cases h
      exact ⟨rfl, fun _ hc => hc⟩
    | succ n =>
      obtain ⟨b, bs, hc, -⟩ := utf8EncodeChar_eq c
      have hsize := utf8Size_eq hc
      rw [dropBytes?_succ] at h
      split at h
      · next hle =>
        obtain ⟨hdrop, hmem⟩ := ih h
        refine ⟨?_, fun d hd => List.mem_cons_of_mem c (hmem d hd)⟩
        rw [encoded_cons, hc, List.drop_append, List.drop_eq_nil_of_le (by simp; omega),
          List.nil_append, ← hdrop, hsize, List.length_cons]
      · cases h

theorem mem_of_takeBytes? {n : Nat} {src taken : List Char} (h : takeBytes? n src = some taken) :
    ∀ c ∈ taken, c ∈ src := by
  induction src generalizing n taken with
  | nil =>
    have htaken : taken = [] := by cases n <;> cases h <;> rfl
    rw [htaken]
    simp
  | cons c src ih =>
    cases n with
    | zero => cases h; simp
    | succ n =>
      rw [takeBytes?_succ] at h
      split at h
      · obtain ⟨rest, hrest, rfl⟩ := Option.map_eq_some_iff.mp h
        intro d hd
        rcases List.mem_cons.mp hd with rfl | hd
        · exact List.mem_cons_self
        · exact List.mem_cons_of_mem c (ih hrest d hd)
      · cases h

/-- The characters of a range are characters of the source. -/
theorem textOf_subset {src : List Char} {s : Span} {t : String} (h : textOf src s = .ok t) :
    ∀ c ∈ t.toList, c ∈ src := by
  unfold textOf slice? at h
  cases hdrop : dropBytes? s.start src with
  | none =>
    -- a range that begins inside a character is no text, unless it is empty
    rw [hdrop] at h
    obtain ⟨cs, hcs, rfl⟩ := map_eq_ok.mp h
    obtain ⟨b, bs, hbytes, hfollow⟩ := drop_encoded_of_none hdrop
    rw [bytesOf_eq, hbytes] at hcs
    cases hlength : s.stop - s.start with
    | zero =>
      rw [hlength] at hcs
      cases hcs
      simp
    | succ n =>
      rw [hlength] at hcs
      exact (decodeFrom_follow hfollow hcs).elim
  | some rest =>
    obtain ⟨hbytes, hmem⟩ := dropBytes?_eq_some hdrop
    rw [hdrop, Option.bind_eq_bind, Option.bind_some] at h
    cases htake : takeBytes? (s.stop - s.start) rest with
    | none =>
      -- and so is one that ends inside a character
      rw [htake] at h
      obtain ⟨cs, hcs, rfl⟩ := map_eq_ok.mp h
      rw [bytesOf_eq, hbytes] at hcs
      exact (decodeFrom_take_ne_ok htake 0 cs hcs).elim
    | some taken =>
      rw [htake] at h
      cases h
      intro c hc
      rw [String.toList_ofList] at hc
      exact hmem c (mem_of_takeBytes? htake c hc)

/-! ## Ranges between characters -/

theorem dropBytes?_encoded (before rest : List Char) :
    dropBytes? (encoded before).length (before ++ rest) = some rest := by
  induction before with
  | nil => cases rest <;> rfl
  | cons c before ih =>
    have hpos := c.utf8Size_pos
    have hlength := length_encoded_cons c before
    obtain ⟨n, hn⟩ : ∃ n, (encoded (c :: before)).length = n + 1 :=
      Nat.exists_eq_succ_of_ne_zero (by omega)
    rw [hn, List.cons_append, dropBytes?_succ, ← hn, hlength, if_pos (by omega),
      Nat.add_sub_cancel_left]
    exact ih

theorem takeBytes?_encoded (taken rest : List Char) :
    takeBytes? (encoded taken).length (taken ++ rest) = some taken := by
  induction taken with
  | nil => cases rest <;> rfl
  | cons c taken ih =>
    have hpos := c.utf8Size_pos
    have hlength := length_encoded_cons c taken
    obtain ⟨n, hn⟩ : ∃ n, (encoded (c :: taken)).length = n + 1 :=
      Nat.exists_eq_succ_of_ne_zero (by omega)
    rw [hn, List.cons_append, takeBytes?_succ, ← hn, hlength, if_pos (by omega),
      Nat.add_sub_cancel_left, ih, Option.map_some]

/-- A place between two characters splits the source. -/
theorem exists_append_of_isValid {code : String} {n : Nat}
    (h : (⟨n⟩ : String.Pos.Raw).IsValid code) :
    ∃ before rest, code.toList = before ++ rest ∧ n = (encoded before).length := by
  obtain ⟨s, t, rfl, hn⟩ := String.Pos.Raw.isValid_iff_exists_append.mp h
  refine ⟨s.toList, t.toList, String.toList_append, ?_⟩
  have hbytes := congrArg List.length (toUTF8_toList_ofList s.toList)
  rw [String.ofList_toList, toList_eq_data] at hbytes
  rw [← hbytes]
  exact congrArg String.Pos.Raw.byteIdx hn

/-- A range that is cut between characters is text. -/
theorem answers_textOf {code : String} {s : Span}
    (hstart : (⟨s.start⟩ : String.Pos.Raw).IsValid code)
    (hstop : (⟨s.stop⟩ : String.Pos.Raw).IsValid code) : Answers (textOf code.toList s) := by
  obtain ⟨before, rest, hcode, hfirst⟩ := exists_append_of_isValid hstart
  obtain ⟨before', rest', hcode', hlast⟩ := exists_append_of_isValid hstop
  have hdrop : dropBytes? s.start code.toList = some rest := by
    rw [hcode, hfirst, dropBytes?_encoded]
  have htake : ∃ cs, takeBytes? (s.stop - s.start) rest = some cs := by
    rcases List.append_eq_append_iff.mp (hcode.symm.trans hcode') with
      ⟨taken, rfl, rfl⟩ | ⟨more, rfl, -⟩
    · have hlength : s.stop - s.start = (encoded taken).length := by
        rw [hfirst, hlast, encoded_append, List.length_append, Nat.add_sub_cancel_left]
      exact ⟨taken, by rw [hlength, takeBytes?_encoded]⟩
    · -- the range ends before it begins, so it holds nothing
      have hlength : s.stop - s.start = 0 := by
        rw [hfirst, hlast, encoded_append, List.length_append]
        omega
      exact ⟨[], by rw [hlength, takeBytes?]⟩
  obtain ⟨cs, hcs⟩ := htake
  have hslice : slice? code.toList s = some cs := by
    rw [slice?, hdrop, Option.bind_eq_bind, Option.bind_some, hcs]
  exact ⟨String.ofList cs, by rw [textOf, hslice]⟩

/-! ## Lines of a source -/

theorem row_positionFrom_le (p : Position) (n : Nat) (cs : List Char) :
    (positionFrom p n cs).row ≤ p.row + cs.length := by
  fun_induction positionFrom p n cs with
  | case1 p cs => omega
  | case2 p n h => simp
  | case3 p n cs _ ih => simp only [List.length_cons] at ih ⊢; omega
  | case4 p n c cs _ _ ih => simp only [List.length_cons] at ih ⊢; omega

theorem row_position_le (src : List Char) (n : Nat) : (position src n).row ≤ src.length := by
  have h := row_positionFrom_le ⟨0, 0⟩ n src
  rw [Nat.zero_add] at h
  exact h

end CodeAtlas.Syntax.Source

namespace CodeAtlas.Syntax.SyntaxTree

variable {α β : Type}

theorem mapAll_eq (f : α → β) (ts : List (SyntaxTree α)) : mapAll f ts = ts.map (map f) := by
  induction ts with
  | nil => rfl
  | cons t ts ih => rw [mapAll, ih, List.map_cons]

theorem children_map (f : α → β) (t : SyntaxTree α) :
    (t.map f).children = t.children.map (map f) := by
  obtain ⟨l, e, cs⟩ := t
  exact mapAll_eq f cs

mutual

theorem preorder_map (f : α → β) : ∀ t : SyntaxTree α, (t.map f).preorder = t.preorder.map (map f)
  | node l e cs => by
    rw [map, preorder, preorderAll_mapAll f cs, preorder, List.map_cons, map]

theorem preorderAll_mapAll (f : α → β) : ∀ ts : List (SyntaxTree α),
    preorderAll (mapAll f ts) = (preorderAll ts).map (map f)
  | [] => rfl
  | t :: ts => by
    rw [mapAll, preorderAll, preorder_map f t, preorderAll_mapAll f ts, preorderAll,
      List.map_append]

end

@[simp] theorem label_map (f : α → β) (t : SyntaxTree α) : (t.map f).label = t.label := by
  cases t; rfl

theorem child?_map (f : α → β) (t : SyntaxTree α) (k : Field) :
    (t.map f).child? k = (t.child? k).map (map f) := by
  rw [child?, children_map, List.find?_map]
  simp only [Function.comp_def, field, label_map]
  rfl

theorem kind_map (f : α → β) (t : SyntaxTree α) : (t.map f).kind = t.kind := by
  rw [kind, label_map, kind]

theorem named_map (f : α → β) (t : SyntaxTree α) : (t.map f).named = t.named := by
  rw [named, label_map, named]

theorem namedChildren_map (f : α → β) (t : SyntaxTree α) :
    (t.map f).namedChildren = t.namedChildren.map (map f) := by
  simp only [namedChildren, children_map, List.filter_map, Function.comp_def, named_map]

theorem firstOfKind?_map (f : α → β) (t : SyntaxTree α) (k : Kind) :
    (t.map f).firstOfKind? k = (t.firstOfKind? k).map (map f) := by
  simp only [firstOfKind?, namedChildren_map, List.find?_map, Function.comp_def, kind_map]

theorem holdsToken_map (f : α → β) (t : SyntaxTree α) (tokens : List Kind) :
    (t.map f).holdsToken tokens = t.holdsToken tokens := by
  simp only [holdsToken, children_map, List.any_map, Function.comp_def, named_map, kind_map]

/-- The nodes of a tree that was located are those of the tree. -/
theorem exists_of_mem_locate {src : String} {t : SyntaxTree Span} {n : Node}
    (h : n ∈ (t.locate src).preorder) :
    ∃ u ∈ t.preorder, u.locate src = n ∧ n.extent = Source.extentOf src.toList u.extent := by
  rw [locate, preorder_map] at h
  obtain ⟨u, hu, rfl⟩ := List.mem_map.mp h
  refine ⟨u, hu, rfl, ?_⟩
  cases u; rfl

/-- The text of a node of a source holds only characters of the source. -/
theorem mem_text_locate {src : String} {t : SyntaxTree Span} {n : Node} {s : String}
    (hn : n ∈ (t.locate src).preorder) (hs : n.text = .ok s) : ∀ c ∈ s.toList, c ∈ src.toList := by
  obtain ⟨u, -, -, hextent⟩ := exists_of_mem_locate hn
  rw [text, mapError_eq_ok, hextent] at hs
  exact Source.textOf_subset hs

theorem lines_locate_le {src : String} {t : SyntaxTree Span} {n : Node}
    (hn : n ∈ (t.locate src).preorder) :
    n.startLine ≤ src.length + 1 ∧ n.endLine ≤ src.length + 1 := by
  obtain ⟨u, -, -, hextent⟩ := exists_of_mem_locate hn
  have hstart := Source.row_position_le src.toList u.extent.start
  have hstop := Source.row_position_le src.toList u.extent.stop
  rw [String.length_toList] at hstart hstop
  rw [startLine, endLine, hextent]
  exact ⟨Nat.succ_le_succ hstart, Nat.succ_le_succ hstop⟩

end CodeAtlas.Syntax.SyntaxTree
