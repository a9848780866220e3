import Mathlib.Data.List.DropRight
import Mathlib.Data.List.Forall2
import UnitText.Settings

/-!
Which options hold.

A settings file is looked for under one name, in the working folder and then in the folder
around it.  Whatever has that name decides, also a folder, a file that is no text and a text
that is no document (`Settings.ofDefaultLocation_of_here`).  A flag is on if its text is the
word `true` with white space around it, said here sign by sign and not through trimming and
folding (`flagIsOn_iff`).  Main statement: the nearest file decides what is set, and the flag
decides what is not (`Settings.options_from_nearest_file_or_flag`).
-/

namespace UnitText

section FlagText

/-- The code points of white space, one by one. -/
def whiteSpace : List Nat :=
  [0x9, 0xa, 0xb, 0xc, 0xd, 0x20, 0x85, 0xa0, 0x1680, 0x2000, 0x2001, 0x2002, 0x2003, 0x2004,
   0x2005, 0x2006, 0x2007, 0x2008, 0x2009, 0x200a, 0x2028, 0x2029, 0x202f, 0x205f, 0x3000]

/-- All signs are white space. -/
def Blank (cs : List Char) : Prop :=
  ∀ c ∈ cs, c.toNat ∈ whiteSpace

/-- The letters of `true`, each in lower and in upper case. -/
def trueLetters : List (Char × Char) :=
  [('t', 'T'), ('r', 'R'), ('u', 'U'), ('e', 'E')]

/-- A word spelled with the given letters, each in one case or the other. -/
def Spells (letters : List (Char × Char)) (word : List Char) : Prop :=
  List.Forall₂ (fun letter c => c = letter.1 ∨ c = letter.2) letters word

-- The instance is named because there is another one that goes through all characters.
instance (cs : List Char) : Decidable (Blank cs) :=
  List.decidableBAll (fun c : Char => c.toNat ∈ whiteSpace) cs

instance (letters : List (Char × Char)) (word : List Char) : Decidable (Spells letters word) :=
  inferInstanceAs (Decidable (List.Forall₂ _ letters word))

/-- White space, then the word `true` in any mixture of cases, then white space. -/
def SaysTrue (text : String) : Prop :=
  ∃ before word after, text.toList = before ++ word ++ after ∧
    Blank before ∧ Spells trueLetters word ∧ Blank after

theorem isBlank_iff (c : Char) : isBlank c ↔ c.toNat ∈ whiteSpace := by
  have hlist : whiteSpace =
      blankRanges.flatMap fun range => List.range' range.1 (range.2 + 1 - range.1) := by
    decide
  rw [hlist, List.mem_flatMap, isBlank, List.any_eq_true]
  refine exists_congr fun range => and_congr_right fun _ => ?_
  rw [List.mem_range'_1, Bool.and_eq_true, decide_eq_true_eq, decide_eq_true_eq]
  omega

theorem trimBlank_eq (cs : List Char) :
    trimBlank cs = (cs.dropWhile isBlank).rdropWhile isBlank :=
  rfl

/-- Only white space is trimmed away. -/
theorem exists_trimBlank (cs : List Char) :
    ∃ before after, cs = before ++ trimBlank cs ++ after ∧ Blank before ∧ Blank after := by
  refine ⟨cs.takeWhile isBlank, (cs.dropWhile isBlank).rtakeWhile isBlank, ?_, ?_, ?_⟩
  · rw [trimBlank_eq, List.append_assoc, List.rdropWhile_append_rtakeWhile,
      List.takeWhile_append_dropWhile]
  · intro c hc
    exact (isBlank_iff c).mp (List.mem_takeWhile_imp hc)
  · intro c hc
    exact (isBlank_iff c).mp (List.mem_rtakeWhile_imp hc)

/-- All white space around a word is trimmed away. -/
theorem trimBlank_append {before word after : List Char} (hbefore : Blank before)
    (hword : ∀ c ∈ word, ¬isBlank c) (hafter : Blank after) :
    trimBlank (before ++ word ++ after) = word := by
  have hblank : ∀ {cs : List Char}, Blank cs → ∀ c ∈ cs, isBlank c :=
    fun h c hc => (isBlank_iff c).mpr (h c hc)
  rw [trimBlank_eq, List.append_assoc, List.dropWhile_append_of_pos (hblank hbefore)]
  cases word with
  | nil =>
      rw [List.nil_append, List.dropWhile_eq_nil_iff.mpr (hblank hafter), List.rdropWhile_nil]
  | cons c cs =>
      have hc : ¬isBlank c := hword c List.mem_cons_self
      have htail : ∀ d ∈ after.reverse, isBlank d :=
        fun d hd => hblank hafter d (List.mem_reverse.mp hd)
      rw [List.cons_append, List.dropWhile_cons_of_neg hc, ← List.cons_append, List.rdropWhile,
        List.reverse_append, List.dropWhile_append_of_pos htail]
      exact List.rdropWhile_eq_self_iff.mpr fun hne => hword _ (List.getLast_mem hne)

theorem toNat_toLower (c : Char) :
    c.toLower.toNat = if 65 ≤ c.toNat ∧ c.toNat ≤ 90 then c.toNat + 32 else c.toNat := by
  unfold Char.toLower
  split
  · next h =>
      have hupper : 65 ≤ c.toNat ∧ c.toNat ≤ 90 := h
      have hsmall : c.toNat + 32 < 2 ^ 32 := by omega
      rw [if_pos hupper]
      exact (UInt32.toNat_add _ _).trans (Nat.mod_eq_of_lt hsmall)
  · next h =>
      have hother : ¬(65 ≤ c.toNat ∧ c.toNat ≤ 90) := h
      rw [if_neg hother]

/-- Two signs come to a letter in lower case: the letter itself and that in upper case. -/
theorem toLower_eq_iff {c lower upper : Char} (hupper : 65 ≤ upper.toNat ∧ upper.toNat ≤ 90)
    (hlower : upper.toLower = lower) : c.toLower = lower ↔ c = lower ∨ c = upper := by
  rw [← hlower]
  simp only [← Char.toNat_inj, toNat_toLower, if_pos hupper]
  split <;> omega

theorem map_toLower_eq_iff {letters : List (Char × Char)}
    (hletters : ∀ letter ∈ letters,
      (65 ≤ letter.2.toNat ∧ letter.2.toNat ≤ 90) ∧ letter.2.toLower = letter.1)
    (word : List Char) :
    word.map Char.toLower = letters.map Prod.fst ↔ Spells letters word := by
  induction letters generalizing word with
  | nil => simp [Spells]
  | cons letter rest ih =>
      obtain ⟨⟨hupper, hlower⟩, hrest⟩ := List.forall_mem_cons.mp hletters
      cases word with
      | nil => simp [Spells]
      | cons c cs =>
          rw [List.map_cons, List.map_cons, List.cons_eq_cons, toLower_eq_iff hupper hlower,
            ih hrest, Spells, Spells, List.forall₂_cons]

theorem spells_true_iff (word : List Char) :
    word.map Char.toLower = "true".toList ↔ Spells trueLetters word := by
  have hletters : ∀ letter ∈ trueLetters,
      (65 ≤ letter.2.toNat ∧ letter.2.toNat ≤ 90) ∧ letter.2.toLower = letter.1 := by
    decide
  exact map_toLower_eq_iff hletters word

theorem Spells.exists_letter {letters : List (Char × Char)} {word : List Char}
    (h : Spells letters word) : ∀ c ∈ word, ∃ letter ∈ letters, c = letter.1 ∨ c = letter.2 := by
  induction h with
  | nil => simp
  | cons hc _ ih =>
      intro d hd
      rcases List.mem_cons.mp hd with rfl | hd
      · exact ⟨_, List.mem_cons_self, hc⟩
      · obtain ⟨letter, hletter, hcase⟩ := ih d hd
        exact ⟨letter, List.mem_cons_of_mem _ hletter, hcase⟩

theorem not_isBlank_of_spells {word : List Char} (h : Spells trueLetters word) :
    ∀ c ∈ word, ¬isBlank c := by
  have hletters : ∀ letter ∈ trueLetters, ¬isBlank letter.1 ∧ ¬isBlank letter.2 := by decide
  intro c hc
  obtain ⟨letter, hletter, rfl | rfl⟩ := h.exists_letter c hc
  · exact (hletters letter hletter).1
  · exact (hletters letter hletter).2

/-- What the text of a flag that is on looks like. -/
theorem flagIsOn_iff (text : String) : flagIsOn text ↔ SaysTrue text := by
  have htrue : flagIsOn text ↔ Spells trueLetters (trimBlank text.toList) := by
    rw [flagIsOn, beq_iff_eq, spells_true_iff]
  rw [htrue]
  constructor
  · intro h
    obtain ⟨before, after, heq, hbefore, hafter⟩ := exists_trimBlank text.toList
    exact ⟨before, _, after, heq, hbefore, h, hafter⟩
  · rintro ⟨before, word, after, heq, hbefore, hword, hafter⟩
    rw [heq, trimBlank_append hbefore (not_isBlank_of_spells hword) hafter]
    exact hword

/-- Bytes are a text if they are its code in UTF-8. -/
theorem fromUTF8?_eq_some_iff {bytes : ByteArray} {text : String} :
    String.fromUTF8? bytes = some text ↔ bytes = text.toUTF8 := by
  unfold String.fromUTF8?
  split
  · rw [Option.some.injEq]
    constructor
    · rintro rfl
      rfl
    · rintro rfl
      rfl
  · next hinvalid =>
      refine iff_of_false (fun h => nomatch h) ?_
      rintro rfl
      exact hinvalid text.isValidUTF8

theorem flagBytesAreOn_iff (value : Option ByteArray) :
    flagBytesAreOn value ↔ ∃ text : String, value = some text.toUTF8 ∧ SaysTrue text := by
  have hbind : ∀ text, value.bind String.fromUTF8? = some text ↔ value = some text.toUTF8 := by
    intro text
    simp only [Option.bind_eq_some_iff, fromUTF8?_eq_some_iff, exists_eq_right]
  simp only [← hbind, ← flagIsOn_iff, flagBytesAreOn]
  cases value.bind String.fromUTF8? with
  | none => simp
  | some text => simp

end FlagText

/-- A path that does not begin at the root is walked name by name. -/
theorem Place.find_eq_foldlM (p : Place) {path : String} (names : List String)
    (hparts : (pathParts path.toList).map String.ofList = names)
    (hrelative : ∃ c ∈ path.toList.head?, c ≠ '/') :
    p.find path = names.foldlM Target.enter (.folder p) := by
  obtain ⟨c, hhead, hc⟩ := hrelative
  obtain ⟨rest, hpath⟩ := List.head?_eq_some_iff.mp hhead
  rw [hpath] at hparts
  simp only [find, hpath, hparts, if_neg hc]

section Reading

variable {p : Place} {path : String} {content : ByteArray}

theorem Place.read_of_folder {q : Place} (hfind : p.find path = .ok (.folder q)) :
    p.read path = .error .isADirectory := by
  rw [read, hfind]
  rfl

theorem Place.read_of_bytes (hfind : p.find path = .ok (.file content))
    (htext : String.fromUTF8? content = none) : p.read path = .error .invalidData := by
  rw [read, hfind]
  simp only [bind, Except.bind, htext]
  rfl

theorem Place.read_of_text {text : String} (hfind : p.find path = .ok (.file content))
    (htext : String.fromUTF8? content = some text) : p.read path = .ok text := by
  rw [read, hfind]
  simp only [bind, Except.bind, htext]
  rfl

end Reading

/-- What a path leads to that ends with an entry of the working folder. -/
def Place.targetOf (p : Place) : FileTree → Target
  | .file content => .file content
  | .folder entries => .folder ⟨entries, p.entries :: p.outer⟩

namespace Settings

/-- What a file or a folder under the name of settings files comes to. -/
def ofEntry (document : String → Option Settings) : FileTree → Except SettingsError Settings
  | .folder _ => .error (.unreadable .isADirectory)
  | .file content =>
    match String.fromUTF8? content with
    | none => .error (.unreadable .invalidData)
    | some text =>
      match document text with
      | some s => .ok s
      | none => .error .malformed

variable (document : String → Option Settings) {p : Place} {entry : FileTree}

/-- A file that is a text comes to what its document says. -/
theorem ofEntry_of_text {content : ByteArray} {text : String}
    (h : String.fromUTF8? content = some text) :
    ofEntry document (.file content) = ofToml text document := by
  simp only [ofEntry, h]
  rfl

theorem ofEntry_ne_notFound (entry : FileTree) : ofEntry document entry ≠ .error .notFound := by
  unfold ofEntry
  split
  · simp
  · split
    · simp
    · split <;> simp

theorem find_fileName (p : Place) : p.find fileName = Target.enter (.folder p) fileName := by
  rw [p.find_eq_foldlM [fileName] (by decide +kernel) ⟨'p', by decide +kernel, by decide⟩]
  exact bind_pure _

/-- The second path leads to what the first one leads to from the folder around. -/
theorem find_above (p : Place) : p.find ("../" ++ fileName) = p.parent.find fileName := by
  rw [p.find_eq_foldlM ["..", fileName] (by decide +kernel) ⟨'.', by decide +kernel, by decide⟩,
    find_fileName]
  exact bind_pure (Target.enter (.folder p.parent) fileName)

theorem find_of_lookup_eq_none (h : p.entries.lookup fileName = none) :
    p.find fileName = .error .notFound := by
  rw [find_fileName, Target.enter, if_neg (by decide), if_neg (by decide), h]

theorem find_of_lookup_eq_some (h : p.entries.lookup fileName = some entry) :
    p.find fileName = .ok (p.targetOf entry) := by
  rw [find_fileName, Target.enter, if_neg (by decide), if_neg (by decide), h]
  cases entry <;> rfl

theorem contains_fileName (p : Place) :
    p.contains fileName = (p.entries.lookup fileName).isSome := by
  unfold Place.contains
  cases h : p.entries.lookup fileName with
  | none => rw [find_of_lookup_eq_none h, Option.isSome_none]
  | some entry => rw [find_of_lookup_eq_some h, Option.isSome_some]

/-- A file of that name is read, and a folder is reported. -/
theorem ofFile_of_lookup_eq_some (h : p.entries.lookup fileName = some entry) :
    ofFile p fileName document = ofEntry document entry := by
  have hfind := find_of_lookup_eq_some h
  cases entry with
  | folder entries => rw [ofFile, Place.read_of_folder hfind, ofEntry]
  | file content =>
      cases htext : String.fromUTF8? content with
      | none => simp only [ofFile, Place.read_of_bytes hfind htext, ofEntry, htext]
      | some text =>
          simp only [ofFile, Place.read_of_text hfind htext, ofEntry_of_text document htext]

theorem ofFile_above (p : Place) :
    ofFile p ("../" ++ fileName) document = ofFile p.parent fileName document := by
  rw [ofFile, ofFile, Place.read, Place.read, find_above]

/-- What has that name in the working folder decides. -/
theorem ofDefaultLocation_of_here (h : p.entries.lookup fileName = some entry) :
    ofDefaultLocation p document = ofFile p fileName document := by
  have hcontains : p.contains fileName := by rw [contains_fileName, h, Option.isSome_some]
  rw [ofDefaultLocation, searchPaths, List.find?_cons_of_pos hcontains]

/-- If nothing has that name in the working folder, the folder around it decides. -/
theorem ofDefaultLocation_of_not_here (h : p.entries.lookup fileName = none) :
    ofDefaultLocation p document =
      match p.parent.entries.lookup fileName with
      | none => .error .notFound
      | some entry => ofEntry document entry := by
  have hhere : ¬p.contains fileName := by simp [contains_fileName, h]
  have habove : p.contains ("../" ++ fileName) = p.parent.contains fileName := by
    rw [Place.contains, Place.contains, find_above]
  rw [ofDefaultLocation, searchPaths, List.find?_cons_of_neg hhere]
  cases hparent : p.parent.entries.lookup fileName with
  | none =>
      have hnone : ¬p.contains ("../" ++ fileName) := by
        simp [habove, contains_fileName, hparent]
      rw [List.find?_cons_of_neg hnone, List.find?_nil]
  | some entry =>
      have hsome : p.contains ("../" ++ fileName) := by
        rw [habove, contains_fileName, hparent, Option.isSome_some]
      rw [List.find?_cons_of_pos hsome]
      exact (ofFile_above document p).trans (ofFile_of_lookup_eq_some document hparent)

theorem ofDefaultLocation_eq_notFound_iff (p : Place) :
    ofDefaultLocation p document = .error .notFound ↔
      p.entries.lookup fileName = none ∧ p.parent.entries.lookup fileName = none := by
  cases hhere : p.entries.lookup fileName with
  | some entry =>
      rw [ofDefaultLocation_of_here document hhere, ofFile_of_lookup_eq_some document hhere]
      exact iff_of_false (ofEntry_ne_notFound document entry) (fun h => nomatch h.1)
  | none =>
      rw [ofDefaultLocation_of_not_here document hhere]
      cases p.parent.entries.lookup fileName with
      | none => exact iff_of_true rfl ⟨rfl, rfl⟩
      | some entry =>
          exact iff_of_false (ofEntry_ne_notFound document entry) (fun h => nomatch h.2)

theorem literal_options_iff {s : Settings} (h : s.literalWrap = none) (flag : Option ByteArray) :
    (s.options flag).literal ↔ ∃ text : String, flag = some text.toUTF8 ∧ SaysTrue text := by
  rw [options, h]
  exact flagBytesAreOn_iff flag

/-- Whatever has the name of settings files in the working folder decides, and then the folder
around does not matter: a file gives its settings, and a folder, a file that is no text and a
text that is no document are reported.  If nothing has that name there, the folder around
decides in the same way.  Only if nothing has it in either, no settings are found.  An option
that is set holds in every environment, and one that is not is on just if the flag is a text
that says `true`.  All this holds however documents are read. -/
theorem options_from_nearest_file_or_flag (p : Place) :
    (∀ entry, p.entries.lookup fileName = some entry →
      ofDefaultLocation p document = ofFile p fileName document ∧
        ofFile p fileName document = ofEntry document entry ∧
        ∀ outer, ofDefaultLocation ⟨p.entries, outer⟩ document = ofDefaultLocation p document) ∧
      (p.entries.lookup fileName = none →
        ∀ entry, p.parent.entries.lookup fileName = some entry →
          ofDefaultLocation p document = ofFile p ("../" ++ fileName) document ∧
            ofFile p ("../" ++ fileName) document = ofEntry document entry) ∧
      (ofDefaultLocation p document = .error .notFound ↔
        p.entries.lookup fileName = none ∧ p.parent.entries.lookup fileName = none) ∧
      ∀ s : Settings,
        (∀ literal, s.literalWrap = some literal → ∀ flag, s.options flag = ⟨literal⟩) ∧
          (s.literalWrap = none → ∀ flag, (s.options flag).literal ↔
            ∃ text : String, flag = some text.toUTF8 ∧ SaysTrue text) := by
  refine ⟨fun entry h => ?_, fun hhere entry h => ?_, ofDefaultLocation_eq_notFound_iff document p,
    fun s => ⟨fun literal h flag => ?_, fun h flag => literal_options_iff h flag⟩⟩
  · have hfile := ofFile_of_lookup_eq_some document h
    refine ⟨ofDefaultLocation_of_here document h, hfile, fun outer => ?_⟩
    let p' : Place := ⟨p.entries, outer⟩
    have h' : p'.entries.lookup fileName = some entry := h
    rw [ofDefaultLocation_of_here document h, ofDefaultLocation_of_here document h', hfile,
      ofFile_of_lookup_eq_some document h']
  · have habove := (ofFile_above document p).trans (ofFile_of_lookup_eq_some document h)
    refine ⟨?_, habove⟩
    rw [ofDefaultLocation_of_not_here document hhere, h, habove]
  · rw [options, h]

/-- A malformed file hides the good one in the folder around, which is found from a folder that
is empty, and white space beyond ASCII stands around the word of the flag. -/
theorem options_from_nearest_file_or_flag_hidden_file :
    let malformed : FileTree := .file "[format]\nliteral_wrap = yes\n".toUTF8
    let good : FileTree := .file "[format]\nliteral_wrap = true\n".toUTF8
    let blocked : Place := ⟨[(fileName, malformed)], [[(fileName, good)]]⟩
    let empty : Place := ⟨[], [[(fileName, good)]]⟩
    let flag := "\u3000tRuE\u2003\n".toUTF8
    ofDefaultLocation blocked = .error .malformed ∧
      ofDefaultLocation empty = .ok ⟨some true⟩ ∧
      (options {} (some flag)).literal ∧ options ⟨some false⟩ (some flag) = ⟨false⟩ := by
  intro malformed good blocked empty flag
  have hmalformed : ofEntry ofDocument? malformed = .error .malformed := by
    rw [ofEntry_of_text ofDocument? (fromUTF8?_eq_some_iff.mpr rfl)]
    have hnone : ofDocument? "[format]\nliteral_wrap = yes\n" = none := by decide +kernel
    rw [ofToml, hnone]
  have hgood : ofEntry ofDocument? good = .ok ⟨some true⟩ := by
    rw [ofEntry_of_text ofDocument? (fromUTF8?_eq_some_iff.mpr rfl)]
    have hsome : ofDocument? "[format]\nliteral_wrap = true\n" = some ⟨some true⟩ := by
      decide +kernel
    rw [ofToml, hsome]
  obtain ⟨hhere, -, -, hoptions⟩ := options_from_nearest_file_or_flag ofDocument? blocked
  obtain ⟨-, habove, -, -⟩ := options_from_nearest_file_or_flag ofDocument? empty
  obtain ⟨hdecides, hfile, -⟩ := hhere malformed rfl
  obtain ⟨hdecides', hfile'⟩ := habove rfl good rfl
  have hflag : SaysTrue "\u3000tRuE\u2003\n" :=
    ⟨['\u3000'], ['t', 'R', 'u', 'E'], ['\u2003', '\n'], by decide +kernel, by decide, by decide,
      by decide⟩
  refine ⟨?_, ?_, ?_, ?_⟩
  · rw [hdecides, hfile, hmalformed]
  · rw [hdecides', hfile', hgood]
  · exact ((hoptions {}).2 rfl (some flag)).mpr ⟨_, rfl, hflag⟩
  · exact (hoptions ⟨some false⟩).1 false rfl (some flag)

end Settings

end UnitText
