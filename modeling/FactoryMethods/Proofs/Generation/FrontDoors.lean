import FactoryMethods.CommandLine
import FactoryMethods.Proofs.Catalogue.Reading
import FactoryMethods.Proofs.Expansion.FactoryListing
import FactoryMethods.Proofs.Source.Lines

/-! Front doors. A file, a document and the command line are ways to one and the same generation:
what a door adds is the reading in front of it and what it says when that fails. So the doors agree
on what can be had through more than one of them. -/
namespace FactoryMethods

def Factory.source (l : Dialect) (nodes : List Descriptor) : String :=
  Listing.source ⟨([""].intercalate (nodes.map (lines l))).toArray⟩

section Generate

variable (l : Dialect) {nodes : List Descriptor}

theorem generate_of_valid (h : Catalogue.defect? ["pos", "t"] nodes = none) :
    (generate l nodes).result = .ok (Factory.source l nodes) := by
  let s : Listing := ⟨([""].intercalate (nodes.map (Factory.lines l))).toArray⟩
  have hs : (expand l factory nodes).result = .ok s := Factory.expand_eq_ok_iff_valid.mpr ⟨h, rfl⟩
  rw [generate, Outcome.map_result, hs]
  rfl

theorem generate_of_defect {index : ℕ} {defect : Defect}
    (h : Catalogue.defect? ["pos", "t"] nodes = some (index, defect)) :
    ∃ node, nodes[index]? = some node ∧
      let f := .malformed index (displayName node.name) defect
      generate l nodes = ⟨[.aborted f], .error f⟩ := by
  have hreserved : Catalogue.defect? factory.reserved nodes = some (index, defect) := h
  obtain ⟨node, here, hexpand⟩ := expand_of_defect l hreserved
  exact ⟨node, here, by rw [generate, hexpand]; rfl⟩

variable {l}

theorem generate_eq_ok_iff {source : String} : (generate l nodes).result = .ok source ↔
    Catalogue.defect? ["pos", "t"] nodes = none ∧ source = Factory.source l nodes := by
  cases h : Catalogue.defect? ["pos", "t"] nodes with
  | none => simp [generate_of_valid l h, eq_comm]
  | some found =>
    obtain ⟨node, -, hfails⟩ := generate_of_defect l h
    simp [hfails]

theorem log_of_generate_error {f : Failure} (h : (generate l nodes).result = .error f) :
    (generate l nodes).log = [.aborted f] := by
  cases hdefect : Catalogue.defect? ["pos", "t"] nodes with
  | none =>
    rw [generate_of_valid l hdefect] at h
    cases h
  | some found =>
    obtain ⟨node, -, hfails⟩ := generate_of_defect l hdefect
    rw [hfails] at h ⊢
    cases h
    rfl

theorem generate_eq_error_iff {f : Failure} : (generate l nodes).result = .error f ↔
    ∃ index defect node, Catalogue.defect? ["pos", "t"] nodes = some (index, defect) ∧
      nodes[index]? = some node ∧ f = .malformed index (displayName node.name) defect := by
  cases h : Catalogue.defect? ["pos", "t"] nodes with
  | none => simp [generate_of_valid l h]
  | some found =>
    obtain ⟨node, here, hfails⟩ := generate_of_defect l h
    rw [hfails]
    constructor
    · intro hf
      exact ⟨found.1, found.2, node, rfl, here, (Except.error.inj hf).symm⟩
    · rintro ⟨index, defect, node', hfound, here', rfl⟩
      cases hfound
      cases here.symm.trans here'
      rfl

end Generate

section Document

variable (l : Dialect) {document : String}

theorem generateDocument_of_unreadable {e : ReadError} (h : Catalogue.parse document = .error e) :
    generateDocument l document = .silent (.unreadable e) := by
  rw [generateDocument, h]

theorem generateDocument_of_read {c : Catalogue} (h : Catalogue.parse document = .ok c) :
    generateDocument l document = generate l c.descriptors := by
  rw [generateDocument, h]

variable {l}

theorem generateDocument_eq_ok_iff {source : String} :
    (generateDocument l document).result = .ok source ↔
      ∃ c, Catalogue.parse document = .ok c ∧ (generate l c.descriptors).result = .ok source := by
  cases h : Catalogue.parse document with
  | error e => simp [generateDocument_of_unreadable l h, Outcome.silent]
  | ok c => simp [generateDocument_of_read l h]

theorem generateDocument_eq_unreadable_iff {e : ReadError} :
    (generateDocument l document).result = .error (.unreadable e) ↔
      Catalogue.parse document = .error e := by
  cases h : Catalogue.parse document with
  | error e' => simp [generateDocument_of_unreadable l h, Outcome.silent]
  | ok c => simp [generateDocument_of_read l h, generate_eq_error_iff]

theorem generateDocument_eq_malformed_iff {index : ℕ} {name : String} {defect : Defect} :
    (generateDocument l document).result = .error (.malformed index name defect) ↔
      ∃ c node, Catalogue.parse document = .ok c ∧
        Catalogue.defect? ["pos", "t"] c.descriptors = some (index, defect) ∧
        c.descriptors[index]? = some node ∧ name = displayName node.name := by
  cases h : Catalogue.parse document with
  | error e => simp [generateDocument_of_unreadable l h, Outcome.silent]
  | ok c =>
    rw [generateDocument_of_read l h, generate_eq_error_iff]
    constructor
    · rintro ⟨_, _, node, hdefect, here, hf⟩
      cases hf
      exact ⟨c, node, rfl, hdefect, here, rfl⟩
    · rintro ⟨_, node, hc, hdefect, here, rfl⟩
      cases hc
      exact ⟨index, defect, node, hdefect, here, rfl⟩

theorem generateDocument_error_cases {f : Failure}
    (h : (generateDocument l document).result = .error f) :
    (∃ e, f = .unreadable e) ∨ ∃ index name defect, f = .malformed index name defect := by
  cases hparse : Catalogue.parse document with
  | error e =>
    rw [generateDocument_of_unreadable l hparse] at h
    exact .inl ⟨e, (Except.error.inj h).symm⟩
  | ok c =>
    rw [generateDocument_of_read l hparse, generate_eq_error_iff] at h
    obtain ⟨index, defect, node, -, -, rfl⟩ := h
    exact .inr ⟨index, displayName node.name, defect, rfl⟩

end Document

section File

theorem textOf_eq_ok_iff {content : Except FileFault Bytes} {document : String} :
    textOf content = .ok document ↔ content = .ok (Utf8.encode document) := by
  cases content with
  | error fault => simp [textOf]
  | ok bytes => rw [textOf, mapError_eq_ok_iff, Utf8.decode_eq_ok, Except.ok.injEq, eq_comm]

def generateFile (l : Dialect) (content : Except FileFault Bytes) : Outcome String :=
  match textOf content with
  | .error f => .silent (.file f)
  | .ok document => generateDocument l document

theorem generateFile_java : generateFile .java = generateFromFile := rfl

theorem generateFile_encode (l : Dialect) (document : String) :
    generateFile l (.ok (Utf8.encode document)) = generateDocument l document := by
  rw [generateFile, textOf_eq_ok_iff.mpr rfl]

theorem generateFromFile_of_fault (fault : FileFault) :
    generateFromFile (.error fault) = .silent (.file fault) := rfl

theorem generateFromFile_encode (document : String) :
    generateFromFile (.ok (Utf8.encode document)) = generateFromXml document := by
  rw [generateFromFile, textOf_eq_ok_iff.mpr rfl]

theorem generateFromFile_of_not_text {bytes : Bytes}
    (h : ¬ ∃ document, Utf8.encode document = bytes) :
    generateFromFile (.ok bytes) = .silent (.file .notText) := by
  cases hdecode : Utf8.decode bytes with
  | error fault => simp [generateFromFile, textOf, hdecode, Except.mapError]
  | ok document => exact absurd ⟨document, Utf8.decode_eq_ok.mp hdecode⟩ h

theorem generateFile_eq_ok_iff {l : Dialect} {content : Except FileFault Bytes} {source : String} :
    (generateFile l content).result = .ok source ↔
      ∃ document c, content = .ok (Utf8.encode document) ∧ Catalogue.parse document = .ok c ∧
        (generate l c.descriptors).result = .ok source := by
  simp only [← textOf_eq_ok_iff, exists_and_left, ← generateDocument_eq_ok_iff]
  cases h : textOf content with
  | error fault => simp [generateFile, h, Outcome.silent]
  | ok document => simp [generateFile, h]

theorem generateFile_of_unread (l : Dialect) {content : Except FileFault Bytes}
    (h : ∀ document c, content = .ok (Utf8.encode document) → Catalogue.parse document ≠ .ok c) :
    ∃ f, generateFile l content = .silent f := by
  cases htext : textOf content with
  | error fault => exact ⟨.file fault, by rw [generateFile, htext]⟩
  | ok document =>
    have hcontent := textOf_eq_ok_iff.mp htext
    cases hparse : Catalogue.parse document with
    | error e =>
      rw [hcontent, generateFile_encode, generateDocument_of_unreadable l hparse]
      exact ⟨.unreadable e, rfl⟩
    | ok c => exact absurd hparse (h document c hcontent)

end File

namespace LogWriter

variable {writer : LogWriter}

theorem shownFrom_of_admits_none (h : ∀ level, writer.admits level = false) (n : ℕ)
    (log : List LogEntry) : writer.shownFrom n log = "" := by
  induction log generalizing n with
  | nil => rfl
  | cons e rest ih => simp [shownFrom, h, ih]

theorem shown_of_admits_none (h : ∀ level, writer.admits level = false) (log : List LogEntry) :
    writer.shown log = "" := shownFrom_of_admits_none h 0 log

end LogWriter

namespace CommandLine

variable {content : Except FileFault Bytes} {writer : LogWriter} {o : Outcome String}

/-- An outcome as it is shown. -/
def shownAs (writer : LogWriter) (o : Outcome String) : Exit :=
  match o.result with
  | .ok source => ⟨0, writer.shown o.log ++ source⟩
  | .error _ => ⟨1, writer.shown o.log⟩

theorem shownAs_of_ok {source : String} (h : o.result = .ok source) :
    shownAs writer o = ⟨0, writer.shown o.log ++ source⟩ := by
  rw [shownAs, h]

theorem shownAs_of_error {f : Failure} (h : o.result = .error f) :
    shownAs writer o = ⟨1, writer.shown o.log⟩ := by
  rw [shownAs, h]

theorem shownAs_eq_iff_of_admits_none (h : ∀ level, writer.admits level = false) {out : String} :
    shownAs writer o = ⟨0, out⟩ ↔ o.result = .ok out := by
  cases hresult : o.result with
  | ok source => simp [shownAs_of_ok hresult, LogWriter.shown_of_admits_none h]
  | error f => simp [shownAs_of_error hresult]

theorem run_eq {arguments : List String} : run arguments content writer =
    shownAs writer ((listing arguments content).map Listing.source) := by
  unfold run shownAs
  rw [Outcome.map_result, Outcome.map_log]
  cases h : (listing arguments content).result with
  | error f => simp only [h, Except.map]
  | ok s => simp only [h, Except.map, Listing.toString_eq_source]

theorem run_cons (path : String) (rest : List String) : run (path :: rest) content writer =
    shownAs writer (generateFile (if rest.head? = some "rust" then .rust else .java) content) := by
  have hdocument : documentOf (path :: rest) content = textOf content :=
    if_neg (List.cons_ne_nil path rest)
  have hdialect : dialectOf (path :: rest) =
      if rest.head? = some "rust" then .rust else .java := by
    rw [dialectOf, List.getElem?_cons_succ, List.head?_eq_getElem?]
  rw [run_eq, listing, generateFile, hdocument, hdialect]
  cases textOf content with
  | error f => rfl
  | ok document =>
    simp only [generateDocument]
    cases Catalogue.parse document with
    | error e => rfl
    | ok c => rfl

theorem run_congr {arguments arguments' : List String} {content' : Except FileFault Bytes}
    (hdocument : documentOf arguments content = documentOf arguments' content')
    (hdialect : dialectOf arguments = dialectOf arguments') :
    run arguments content writer = run arguments' content' writer := by
  rw [run, run, listing, listing, hdocument, hdialect]

theorem run_nil (path : String) :
    run [] content writer = run [path] (.ok (Utf8.encode builtIn)) writer := by
  refine run_congr ?_ rfl
  have hfile : textOf (.ok (Utf8.encode builtIn)) = .ok builtIn := textOf_eq_ok_iff.mpr rfl
  exact ((if_neg (List.cons_ne_nil path [])).trans hfile).symm

end CommandLine

/-- The front doors agree. The command line shows what was logged, as far as that is let through,
and behind it what generation gives, and fails with no more than the log. -/
theorem front_doors_agree :
    ((∀ fault, generateFromFile (.error fault) = .silent (.file fault)) ∧
      (∀ bytes, (¬ ∃ document, Utf8.encode document = bytes) →
        generateFromFile (.ok bytes) = .silent (.file .notText)) ∧
      ∀ document, generateFromFile (.ok (Utf8.encode document)) = generateFromXml document) ∧
    (∀ document,
      (∀ e, (generateFromXml document).result = .error (.unreadable e) ↔
        Catalogue.parse document = .error e) ∧
      (∀ index name defect,
        (generateFromXml document).result = .error (.malformed index name defect) ↔
          ∃ c node, Catalogue.parse document = .ok c ∧
            Catalogue.defect? ["pos", "t"] c.descriptors = some (index, defect) ∧
            c.descriptors[index]? = some node ∧ name = displayName node.name) ∧
      (∀ source, (generateFromXml document).result = .ok source ↔
        ∃ c, Catalogue.parse document = .ok c ∧
          Catalogue.defect? ["pos", "t"] c.descriptors = none ∧
          source = Factory.source .java c.descriptors) ∧
      ∀ f, (generateFromXml document).result = .error f →
        (∃ e, f = .unreadable e) ∨ ∃ index name defect, f = .malformed index name defect) ∧
    (∀ writer path rest content,
      let exit := CommandLine.run (path :: rest) content writer
      let dialect : Dialect := if rest.head? = some "rust" then .rust else .java
      (∀ document c, content = .ok (Utf8.encode document) → Catalogue.parse document = .ok c →
        let o := generate dialect c.descriptors
        (∀ source, o.result = .ok source → exit = ⟨0, writer.shown o.log ++ source⟩) ∧
        ∀ f, o.result = .error f → exit = ⟨1, writer.shown [.aborted f]⟩) ∧
      ((∀ document c, content = .ok (Utf8.encode document) → Catalogue.parse document ≠ .ok c) →
        exit = ⟨1, ""⟩) ∧
      (rest.head? ≠ some "rust" →
        let o := generateFromFile content
        (∀ source, o.result = .ok source → exit = ⟨0, writer.shown o.log ++ source⟩) ∧
        ∀ f, o.result = .error f → exit = ⟨1, writer.shown o.log⟩) ∧
      ((∀ level, writer.admits level = false) →
        (∀ out, exit = ⟨0, out⟩ ↔ ∃ document c, content = .ok (Utf8.encode document) ∧
          Catalogue.parse document = .ok c ∧ (generate dialect c.descriptors).result = .ok out) ∧
        ((∀ out, exit ≠ ⟨0, out⟩) → exit = ⟨1, ""⟩))) ∧
    ∀ writer path content, CommandLine.run [] content writer =
      CommandLine.run [path] (.ok (Utf8.encode CommandLine.builtIn)) writer := by
  refine ⟨⟨generateFromFile_of_fault, fun _ => generateFromFile_of_not_text,
    generateFromFile_encode⟩, fun document => ⟨fun _ => generateDocument_eq_unreadable_iff,
      fun _ _ _ => generateDocument_eq_malformed_iff, fun source => ?_,
      fun _ => generateDocument_error_cases⟩, ?_, fun _ path _ => CommandLine.run_nil path⟩
  · rw [generateFromXml, generateDocument_eq_ok_iff]
    simp only [generate_eq_ok_iff]
  · intro writer path rest content exit dialect
    have hexit : exit = CommandLine.shownAs writer (generateFile dialect content) :=
      CommandLine.run_cons path rest
    have hread {document : String} {c : Catalogue} (htext : content = .ok (Utf8.encode document))
        (hc : Catalogue.parse document = .ok c) :
        exit = CommandLine.shownAs writer (generate dialect c.descriptors) := by
      rw [hexit, htext, generateFile_encode, generateDocument_of_read dialect hc]
    refine ⟨fun document c htext hc => ?_, fun hnone => ?_, fun hjava => ?_, fun hquiet => ?_⟩
    · rw [hread htext hc]
      refine ⟨fun source => CommandLine.shownAs_of_ok, fun f hf => ?_⟩
      rw [CommandLine.shownAs_of_error hf, log_of_generate_error hf]
    · obtain ⟨f, hf⟩ := generateFile_of_unread dialect hnone
      rw [hexit, hf]
      rfl
    · have hdialect : dialect = .java := if_neg hjava
      rw [hexit, hdialect, generateFile_java]
      exact ⟨fun source => CommandLine.shownAs_of_ok, fun f => CommandLine.shownAs_of_error⟩
    · have hshown (out : String) : exit = ⟨0, out⟩ ↔
          (generateFile dialect content).result = .ok out := by
        rw [hexit, CommandLine.shownAs_eq_iff_of_admits_none hquiet]
      refine ⟨fun out => (hshown out).trans generateFile_eq_ok_iff, fun hfails => ?_⟩
      cases hresult : (generateFile dialect content).result with
      | ok out => exact absurd ((hshown out).mpr hresult) (hfails out)
      | error f =>
        rw [hexit, CommandLine.shownAs_of_error hresult, LogWriter.shown_of_admits_none hquiet]

/-- A run that ends well and one that is refused, both with all lines let through. -/
theorem front_doors_agree_logged :
    let writer : LogWriter := ⟨fun _ => true, fun n e => s!"{n} {e.level.name} {e.message}\n"⟩
    let exit (document : String) : CommandLine.Exit :=
      CommandLine.run ["catalogue.xml", "rust"] (.ok (Utf8.encode document)) writer
    exit "<catalogue><node name='Empty'/></catalogue>" =
      ⟨0, "0 DEBUG Expanding descriptor #0 'Empty' (0 fields)\n" ++
        "1 INFO Expanded 1 descriptors into 5 lines\n" ++ Factory.source .rust [⟨"Empty", []⟩]⟩ ∧
    exit "<catalogue><node name=''/></catalogue>" =
      ⟨1, "0 WARN Expansion aborted: malformed descriptor #0 '<unnamed>': node name is empty\n"⟩ ∧
    exit "<catalogue>" = ⟨1, ""⟩ := by
  intro writer exit
  obtain ⟨-, -, hrun, -⟩ := front_doors_agree
  have hvalid := hrun writer "catalogue.xml" ["rust"]
    (.ok (Utf8.encode "<catalogue><node name='Empty'/></catalogue>"))
  have hmalformed := hrun writer "catalogue.xml" ["rust"]
    (.ok (Utf8.encode "<catalogue><node name=''/></catalogue>"))
  have hunread := hrun writer "catalogue.xml" ["rust"] (.ok (Utf8.encode "<catalogue>"))
  have hreads : Catalogue.parse "<catalogue><node name='Empty'/></catalogue>" =
      .ok ⟨[⟨"Empty", []⟩]⟩ := by rfl
  have hreads' : Catalogue.parse "<catalogue><node name=''/></catalogue>" =
      .ok ⟨[⟨"", []⟩]⟩ := by rfl
  refine ⟨(hvalid.1 _ _ rfl hreads).1 _ (generate_of_valid .rust (by decide)),
    (hmalformed.1 _ _ rfl hreads').2 (.malformed 0 "<unnamed>" .emptyNodeName) (by rfl),
    hunread.2.1 fun document c hcontent => ?_⟩
  obtain rfl := Utf8.encode_injective (Except.ok.inj hcontent)
  exact of_decide_eq_true (by rfl)

/-- Where lines of the log are let through, more is shown than the source, and after a
failure something. -/
theorem run_shows_log :
    let line (_ : ℕ) (e : LogEntry) : String := "2026-01-01T00:00:00.000000Z  " ++ e.level.name ++
      " treegen_codegen::expander: " ++ e.message ++ "\n"
    let run (document : String) : CommandLine.Exit := CommandLine.run ["catalogue.xml", "rust"]
      (.ok (Utf8.encode document)) ⟨fun level => level != .debug, line⟩
    let refused := run "<catalogue><node name=''/></catalogue>"
    let accepted := run "<catalogue/>"
    refused = ⟨1, "2026-01-01T00:00:00.000000Z  WARN treegen_codegen::expander: " ++
      "Expansion aborted: malformed descriptor #0 '<unnamed>': node name is empty\n"⟩ ∧
    refused ≠ ⟨1, ""⟩ ∧ accepted.code = 0 ∧
    (generate .rust []).result = .ok "" ∧ accepted.stdout ≠ "" := by
  exact ⟨by rfl, by decide, by rfl, by rfl, by decide⟩

end FactoryMethods
