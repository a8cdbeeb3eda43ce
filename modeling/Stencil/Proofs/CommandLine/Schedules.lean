import Stencil.Proofs.CommandLine.Crew
import Stencil.Proofs.CommandLine.Places
import Stencil.Proofs.Token.Extent

/-! What a crew leaves behind. Trees are read and never written, pages are written and never read, and the directories stay
as they are: whatever the order, a worker finds its tree as it was, and its page stays where it is put unless another page
goes to the same place. -/

namespace Stencil.Run

def page? (o : Options) (t : FileTree) (path : Bytes) : Option Compiled :=
  (t.read path).toOption.bind fun data => (compile o path data).2.toOption

/-- The files a page is written to, with their contents. -/
def deliveries (o : Options) (path : Bytes) (page : Compiled) : List (Bytes × Bytes) :=
  (Path.outputOf path, page.text) ::
    if o.map then [(SourceMap.fileName (Path.outputOf path), page.map)] else []

/-- One of the pages puts this content at this place. -/
def Due (o : Options) (files : List Bytes) (t : FileTree) (spot : List Bytes) (content : Bytes) : Prop :=
  ∃ path ∈ files, ∃ page, page? o t path = some page ∧ ∃ name, (name, content) ∈ deliveries o path page ∧
    t.target name = .ok spot

/-- Pages that go to the same place are the same. -/
def Compatible (o : Options) (files : List Bytes) (t : FileTree) : Prop :=
  ∀ spot content content', Due o files t spot content → Due o files t spot content' → content = content'

def Logged (log : LogFile) (t : FileTree) (spot : List Bytes) : Prop := ∃ path ∈ log, t.target path = .ok spot

def Apart (log : LogFile) (files : List Bytes) (t : FileTree) : Prop :=
  ∀ path ∈ files, ∀ name ∈ [path, Path.outputOf path, SourceMap.fileName (Path.outputOf path)], ∀ spot,
    t.target name = .ok spot → ¬ Logged log t spot

theorem getLast?_fileName {path tail : Bytes} {c : UInt8} (htail : Ascii.slash ∉ tail) (hlast : tail.getLast? = some c) :
    (Path.fileName (path ++ tail)).getLast? = some c := by
  rw [Path.fileName_append htail, List.getLast?_append, hlast]
  rfl

theorem getLast?_tree {path : Bytes} (h : Path.isTreeFile path) : (Path.fileName path).getLast? = some 0x6e := by
  have hend : (".json" : Bytes).reverse <+: path.reverse := Bytes.startsWith_eq_true.mp h
  obtain ⟨stem, rfl⟩ := List.reverse_prefix.mp hend
  exact getLast?_fileName (by decide) (by decide)

theorem getLast?_delivery {o : Options} {path : Bytes} {page : Compiled} {name content : Bytes}
    (h : (name, content) ∈ deliveries o path page) : (Path.fileName name).getLast? = some 0x70 := by
  rw [deliveries] at h
  rcases List.mem_cons.mp h with h | h
  · obtain ⟨rfl, rfl⟩ := Prod.mk.inj h
    exact getLast?_fileName (by decide) (by decide)
  · split at h
    · obtain ⟨rfl, rfl⟩ := Prod.mk.inj (List.mem_singleton.mp h)
      exact getLast?_fileName (by decide) (by decide)
    · cases h

theorem delivery_name {o : Options} {path : Bytes} {page : Compiled} {name content : Bytes}
    (h : (name, content) ∈ deliveries o path page) :
    name ∈ [path, Path.outputOf path, SourceMap.fileName (Path.outputOf path)] := by
  rw [deliveries] at h
  rcases List.mem_cons.mp h with h | h
  · simp [(Prod.mk.inj h).1]
  · split at h
    · simp [(Prod.mk.inj (List.mem_singleton.mp h)).1]
    · cases h

theorem not_reserved {name : Bytes} {c : UInt8} (h : name.getLast? = some c) (hc : some c ≠ (Path.dot : Bytes).getLast?) :
    name ∉ FileTree.reserved := by
  intro hmem
  rcases List.mem_cons.mp hmem with rfl | hmem
  · cases h
  · rcases List.mem_cons.mp hmem with rfl | hmem
    · exact hc h.symm
    · obtain rfl := List.mem_singleton.mp hmem
      exact hc h.symm

/-- From one state of the files to another, only log lines and pages due were written. -/
structure Proceeds (o : Options) (log : LogFile) (files : List Bytes) (t : FileTree) (w w' : World) : Prop where
  directories : FileTree.SameDirectories w.files w'.files
  spots : ∀ spot, w'.files.get? spot = w.files.get? spot ∨ Logged log t spot ∨
    ∃ content, Due o files t spot content ∧ w'.files.get? spot = some (.file content)

section Proceeds

variable {o : Options} {log : LogFile} {files : List Bytes} {t : FileTree} {w w' w'' start : World}

theorem Proceeds.refl (w : World) : Proceeds o log files t w w := ⟨.refl _, fun _ => .inl rfl⟩

theorem Proceeds.trans (h : Proceeds o log files t w w') (h' : Proceeds o log files t w' w'') :
    Proceeds o log files t w w'' where
  directories := h.directories.trans h'.directories
  spots spot := by
    rcases h'.spots spot with hsame | hlogged | ⟨content, hdue, hcontent⟩
    · rw [hsame]
      exact h.spots spot
    · exact .inr (.inl hlogged)
    · exact .inr (.inr ⟨content, hdue, hcontent⟩)

theorem Proceeds.set {name content : Bytes} {spot : List Bytes}
    (htarget : w.files.target name = .ok spot) (h : Logged log t spot ∨ Due o files t spot content) :
    Proceeds o log files t w { w with files := w.files.set spot (.file content) } where
  directories := .set (FileTree.target_ne_nil htarget) (FileTree.target_new htarget) content
  spots other := by
    rw [FileTree.get?_set (FileTree.target_ne_nil htarget)]
    split
    next heq =>
      subst heq
      exact .inr (h.imp_right fun hdue => ⟨content, hdue, rfl⟩)
    next => exact .inl rfl

theorem Proceeds.target (h : Proceeds o log files t w w') {name : Bytes} {spot : List Bytes} :
    w'.files.target name = .ok spot ↔ w.files.target name = .ok spot :=
  ⟨h.directories.symm.target, h.directories.target⟩

theorem Proceeds.read (h : Proceeds o log files w.files w w') (hapart : Apart log files w.files) {path : Bytes}
    (hpath : path ∈ files) (htree : Path.isTreeFile path) :
    (w'.files.read path).toOption = (w.files.read path).toOption := by
  have hname := not_reserved (getLast?_tree htree) (by decide)
  have hkept {spot : List Bytes} (hspot : w.files.target path = .ok spot) : w'.files.get? spot = w.files.get? spot := by
    rcases h.spots spot with hsame | hlogged | ⟨content, ⟨path', -, page, -, name, hdelivery, hplace⟩, -⟩
    · exact hsame
    · exact absurd hlogged (hapart path hpath path List.mem_cons_self spot hspot)
    · have hlast := getLast?_tree htree
      rw [FileTree.fileName_of_target hspot hplace, getLast?_delivery hdelivery] at hlast
      exact absurd hlast (by decide)
  have hok (x : Except Obstacle Bytes) (content : Bytes) : x.toOption = some content ↔ x = .ok content :=
    ⟨ok_of_toOption, fun h => congrArg Except.toOption h⟩
  refine Option.ext fun content => ?_
  rw [hok, hok, FileTree.read_eq_ok hname, FileTree.read_eq_ok hname]
  refine exists_congr fun spot => ?_
  rw [h.target]
  exact and_congr_right fun hspot => by rw [hkept hspot]

/-- These files are where they go, if no other page goes there. -/
structure Arrived (o : Options) (log : LogFile) (files : List Bytes) (start : World) (part : List (Bytes × Bytes)) (w : World) :
    Prop where
  proceeds : Proceeds o log files start.files start w
  found : Compatible o files start.files → ∀ name content, (name, content) ∈ part → w.files.read name = .ok content

theorem Arrived.later (hapart : Apart log files start.files) {path : Bytes} (hpath : path ∈ files) {page : Compiled}
    (hpage : page? o start.files path = some page) {part : List (Bytes × Bytes)} (hpart : part ⊆ deliveries o path page)
    (h : Arrived o log files start part w) (hw : Proceeds o log files start.files w w') :
    Arrived o log files start part w' where
  proceeds := h.proceeds.trans hw
  found hcompatible name content hmem := by
    have hname := not_reserved (getLast?_delivery (hpart hmem)) (by decide)
    obtain ⟨spot, htarget, hspot⟩ := (FileTree.read_eq_ok hname).mp (h.found hcompatible name content hmem)
    have hplace := h.proceeds.target.mp htarget
    have hdue : Due o files start.files spot content := ⟨path, hpath, page, hpage, name, hpart hmem, hplace⟩
    refine (FileTree.read_eq_ok hname).mpr ⟨spot, hw.target.mpr htarget, ?_⟩
    rcases hw.spots spot with hsame | hlogged | ⟨content', hdue', hcontent'⟩
    · rw [hsame, hspot]
    · exact absurd hlogged (hapart path hpath name (delivery_name (hpart hmem)) spot hplace)
    · rw [hcontent', hcompatible spot content content' hdue hdue']

end Proceeds

section Job

variable {o : Options} {log : LogFile} {files : List Bytes} {start w : World}

/-- What has become of a file: its own page, which is where it goes unless another one goes there. -/
structure Settled (o : Options) (log : LogFile) (files : List Bytes) (start : World) (path : Bytes) (r : Result) (w : World) :
    Prop where
  input : r.input = path
  output : r.output = Path.outputOf path
  page : r.outcome.toOption = page? o start.files path
  arrived : ∀ page ∈ page? o start.files path, Arrived o log files start (deliveries o path page) w

theorem Settled.later {w' : World} (hapart : Apart log files start.files) {path : Bytes} (hpath : path ∈ files) {r : Result}
    (h : Settled o log files start path r w) (hw : Proceeds o log files start.files w w') :
    Settled o log files start path r w' where
  input := h.input
  output := h.output
  page := h.page
  arrived page hpage := (h.arrived page hpage).later hapart hpath hpage (List.Subset.refl _) hw

theorem append_within (h : Proceeds o log files start.files start w) {path : Bytes} (hlog : path ∈ log) (content : Bytes) :
    (Task.host.append path content).Within (Proceeds o log files start.files)
      (fun _ w => Proceeds o log files start.files start w) w := by
  intro w' hw
  have hstart := h.trans hw
  have happend : Proceeds o log files start.files w' ((Request.append path content).perform w').2 := by
    change Proceeds o log files start.files w' (World.change (·.append path content) w').2
    rcases World.change_cases (·.append path content) w' with ⟨after, hafter, hchange⟩ | ⟨e, hchange⟩
    · obtain ⟨spot, all, hspot, rfl⟩ := FileTree.append_eq_ok hafter
      rw [hchange]
      exact .set hspot (.inl ⟨path, hlog, hstart.target.mp hspot⟩)
    · rw [hchange]
      exact .refl w'
  exact ⟨happend, fun w'' hw'' => (hstart.trans happend).trans hw''⟩

theorem log_within (h : Proceeds o log files start.files start w) (lines : List Bytes) :
    (Run.log Task.host log lines).Within (Proceeds o log files start.files)
      (fun _ w => Proceeds o log files start.files start w) w := by
  cases log with
  | none => exact fun w' hw => h.trans hw
  | some path => exact (append_within h rfl _).bind .refl fun _ _ hw _ hw' => hw.trans hw'

theorem compileFile_within (h : Proceeds o log files start.files start w) (hapart : Apart log files start.files) {path : Bytes}
    (hpath : path ∈ files) (htree : Path.isTreeFile path) :
    (compileFile Task.host o log path).Within (Proceeds o log files start.files)
      (fun r w => Proceeds o log files start.files start w ∧ r.input = path ∧ r.output = Path.outputOf path ∧
        r.outcome.toOption = page? o start.files path) w := by
  refine (log_within h _).bind .refl fun _ w hw => ?_
  refine Task.Within.bind (Q := fun data w => Proceeds o log files start.files start w ∧
    data.toOption = (start.files.read path).toOption) .refl ?_ fun data w ⟨hw, hdata⟩ => ?_
  · intro w' hw'
    have hread := (hw.trans hw').read hapart hpath htree
    exact ⟨.refl w', fun w'' hw'' => ⟨(hw.trans hw').trans hw'', hread⟩⟩
  · cases data with
    | error e =>
      have hnone : page? o start.files path = none := by
        rw [page?, ← hdata]
        rfl
      exact fun w' hw' => ⟨hw.trans hw', rfl, rfl, hnone.symm⟩
    | ok data =>
      have hsome : page? o start.files path = (compile o path data).2.toOption := by
        rw [page?, ← hdata]
        rfl
      refine (log_within hw _).bind .refl fun _ w hw w' hw' => ⟨hw.trans hw', rfl, rfl, hsome.symm⟩

section Writing

variable (hapart : Apart log files start.files) {path : Bytes} (hpath : path ∈ files) {page : Compiled}
  (hpage : page? o start.files path = some page)
include hapart hpath hpage

theorem write_within (h : Proceeds o log files start.files start w) {name content : Bytes}
    (hdelivery : (name, content) ∈ deliveries o path page) :
    (Task.host.write name content).Within (Proceeds o log files start.files)
      (fun written w => written = .ok () → Arrived o log files start [(name, content)] w) w := by
  intro w' hw
  have hstart := h.trans hw
  change Proceeds o log files start.files w' (World.change (·.write name content) w').2 ∧
    (Task.done (World.change (·.write name content) w').1).Within _ _ (World.change (·.write name content) w').2
  rcases World.change_cases (·.write name content) w' with ⟨after, hafter, hchange⟩ | ⟨e, hchange⟩
  · obtain ⟨spot, hspot, rfl⟩ := FileTree.write_eq_ok hafter
    have hdue : Due o files start.files spot content :=
      ⟨path, hpath, page, hpage, name, hdelivery, hstart.target.mp hspot⟩
    have hwrite : Proceeds o log files start.files w' { w' with files := w'.files.set spot (.file content) } :=
      .set hspot (.inr hdue)
    have hread : (w'.files.set spot (.file content)).read name = .ok content := by
      have hput := FileTree.get?_set (t := w'.files) (FileTree.target_ne_nil hspot) (.file content) spot
      exact (FileTree.read_eq_ok (not_reserved (getLast?_delivery hdelivery) (by decide))).mpr
        ⟨spot, hwrite.target.mpr hspot, hput.trans (if_pos rfl)⟩
    have harrived : Arrived o log files start [(name, content)] { w' with files := w'.files.set spot (.file content) } := by
      refine ⟨hstart.trans hwrite, fun _ name content hmem => ?_⟩
      obtain ⟨rfl, rfl⟩ := Prod.mk.inj (List.mem_singleton.mp hmem)
      exact hread
    rw [hchange]
    refine ⟨hwrite, fun w'' hw'' _ => ?_⟩
    exact harrived.later hapart hpath hpage (by simpa using hdelivery) hw''
  · rw [hchange]
    exact ⟨.refl w', fun w'' hw'' hok => by cases hok⟩

theorem writePage_within (h : Proceeds o log files start.files start w) :
    (writePage Task.host o (Path.outputOf path) page).Within (Proceeds o log files start.files)
      (fun written w => written = .ok () → Arrived o log files start (deliveries o path page) w) w := by
  have hfirst : (Path.outputOf path, page.text) ∈ deliveries o path page := List.mem_cons_self
  have hlater {part : List (Bytes × Bytes)} (hpart : part ⊆ deliveries o path page) (w w' : World) :
      Arrived o log files start part w → Proceeds o log files start.files w w' → Arrived o log files start part w' :=
    fun hw hw' => hw.later hapart hpath hpage hpart hw'
  refine (write_within hapart hpath hpage h hfirst).bind .refl fun written w hwritten => ?_
  cases written with
  | error e => exact fun w' hw' hok => by cases hok
  | ok _ =>
    have htext := hwritten rfl
    dsimp only
    by_cases hmap : o.map = true
    · have hall : deliveries o path page = [(Path.outputOf path, page.text)] ++
          [(SourceMap.fileName (Path.outputOf path), page.map)] := by rw [deliveries, if_pos hmap]; rfl
      have hsecond : (SourceMap.fileName (Path.outputOf path), page.map) ∈ deliveries o path page := by simp [hall]
      rw [if_pos hmap]
      refine ((write_within hapart hpath hpage htext.proceeds hsecond).frame (hlater (by simp [hall])) htext).bind .refl ?_
      rintro (e | _) w ⟨hwritten, htext⟩
      · exact fun w' hw' hok => by cases hok
      · have hmapped := hwritten rfl
        have hboth : Arrived o log files start (deliveries o path page) w := by
          refine ⟨htext.proceeds, fun hcompatible name content hmem => ?_⟩
          rw [hall] at hmem
          rcases List.mem_append.mp hmem with hmem | hmem
          · exact htext.found hcompatible name content hmem
          · exact hmapped.found hcompatible name content hmem
        exact fun w' hw' _ => hlater (List.Subset.refl _) w w' hboth hw'
    · have hall : deliveries o path page = [(Path.outputOf path, page.text)] := by rw [deliveries, if_neg hmap]
      rw [if_neg hmap, hall]
      exact fun w' hw' _ => hlater (by rw [hall]; exact List.Subset.refl _) w w' htext hw'

end Writing

/-- A page that came out is written where it goes, and of one that did not nothing is written. -/
theorem writeResult_within (h : Proceeds o log files start.files start w) (hapart : Apart log files start.files) {path : Bytes}
    (hpath : path ∈ files) {r : Result} (hinput : r.input = path) (houtput : r.output = Path.outputOf path)
    (hpage : r.outcome.toOption = page? o start.files path) :
    (writeResult Task.host o log r).Within (Proceeds o log files start.files)
      (fun written w => written = .ok () → Settled o log files start path r w) w := by
  obtain ⟨input, output, outcome⟩ := r
  obtain rfl : output = Path.outputOf path := houtput
  cases outcome with
  | error e =>
    have hnone : page? o start.files path = none := hpage.symm
    intro w' hw' _
    refine ⟨hinput, rfl, hpage, fun page hmem => ?_⟩
    rw [hnone] at hmem
    cases hmem
  | ok page =>
    have hsome : page? o start.files path = some page := hpage.symm
    refine (writePage_within hapart hpath hsome h).bind .refl fun written w hwritten => ?_
    cases written with
    | error e => exact fun w' hw' hok => by cases hok
    | ok _ =>
      have hsettled : Settled o log files start path ⟨input, Path.outputOf path, .ok page⟩ w := by
        refine ⟨hinput, rfl, hpage, fun other hmem => ?_⟩
        obtain rfl : page = other := Option.some.inj (hsome.symm.trans hmem)
        exact hwritten rfl
      have hlogged := log_within (hwritten rfl).proceeds [Topic.commandLine.tag ++ "wrote " ++ Path.outputOf path]
      refine (hlogged.frame (fun _ _ hw hw' => hw.later hapart hpath hw') hsettled).bind .refl fun _ w ⟨_, hw⟩ w' hw' _ => ?_
      exact hw.later hapart hpath hw'

/-- Every worker keeps to this, whatever the others do. -/
theorem job_within (hstdout : o.stdout = false) (h : Proceeds o log files start.files start w)
    (hapart : Apart log files start.files) {path : Bytes} (hpath : path ∈ files) (htree : Path.isTreeFile path) :
    (job Task.host o false log path).Within (Proceeds o log files start.files)
      (fun outcome w => ∀ r, outcome = .ok r → Settled o log files start path r w) w := by
  refine (compileFile_within h hapart hpath htree).bind .refl fun r w ⟨hw, hinput, houtput, hpage⟩ => ?_
  dsimp only
  rw [if_neg (by simp [hstdout])]
  refine (writeResult_within hw hapart hpath hinput houtput hpage).bind .refl fun written w hwritten w' hw' r' hr => ?_
  cases written with
  | error e => cases hr
  | ok _ =>
    cases hr
    exact (hwritten rfl).later hapart hpath hw'

end Job

/-- A crew can go about these files so that it comes to the end without trouble, in this state. -/
def Compiles (o : Options) (log : LogFile) (files : List Bytes) (w : World) (results : List Result) (w' : World) : Prop :=
  ∃ schedule, ((Crew.start files w).run o false log schedule).results? = some results ∧
    ((Crew.start files w).run o false log schedule).world = w'

section Compiles

variable {o : Options} {log : LogFile} {files : List Bytes} {w w' w'' : World} {results results' : List Result}

theorem compileAll_compiles (h : (compileAll World.host o false log files).run w = (.ok results, w')) :
    Compiles o log files w results w' := by
  obtain ⟨schedule, hrun⟩ := compileAll_scheduled o false log h
  exact ⟨schedule, by rw [hrun, Crew.results_of_workers], by rw [hrun]⟩

theorem compiles_settled (hstdout : o.stdout = false) (htrees : ∀ path ∈ files, Path.isTreeFile path)
    (hapart : Apart log files w.files) (h : Compiles o log files w results w') :
    Proceeds o log files w.files w w' ∧ List.Forall₂ (fun path r => Settled o log files w path r w') files results := by
  obtain ⟨schedule, hresults, rfl⟩ := h
  have hstart : (Crew.start files w).Within o false log (Proceeds o log files w.files) (Settled o log files w) files :=
    .start fun path hpath => job_within hstdout (.refl w) hapart hpath (htrees path hpath)
  obtain ⟨hproceeds, hend⟩ := hstart.run .refl (fun _ _ _ => .trans) schedule
  exact ⟨hproceeds, hend.results .refl hresults⟩

theorem Proceeds.place (h : Proceeds o log files w.files w w') {path : Bytes} {page : Compiled} {name content : Bytes}
    {spot : List Bytes} (hdelivery : (name, content) ∈ deliveries o path page) (hplace : w.files.target name = .ok spot)
    (hread : w'.files.read name = .ok content) : w'.files.get? spot = some (.file content) := by
  obtain ⟨spot', htarget, hcontent⟩ :=
    (FileTree.read_eq_ok (not_reserved (getLast?_delivery hdelivery) (by decide))).mp hread
  obtain rfl : spot = spot' := Except.ok.inj (hplace.symm.trans (h.target.mp htarget))
  exact hcontent

/-- Where pages are where they go, a place holds the page due there, or what it held if none is due. -/
theorem Proceeds.get? (h : Proceeds o log files w.files w w') (hcompatible : Compatible o files w.files)
    (harrived : ∀ path ∈ files, ∀ page ∈ page? o w.files path, Arrived o log files w (deliveries o path page) w')
    {spot : List Bytes} (hspot : ¬ Logged log w.files spot) :
    (∀ content, Due o files w.files spot content → w'.files.get? spot = some (.file content)) ∧
      ((∀ content, ¬ Due o files w.files spot content) → w'.files.get? spot = w.files.get? spot) := by
  constructor
  · rintro content ⟨path, hpath, page, hpage, name, hdelivery, hplace⟩
    exact h.place hdelivery hplace ((harrived path hpath page hpage).found hcompatible name content hdelivery)
  · intro hnone
    rcases h.spots spot with hsame | hlogged | ⟨content, hdue, -⟩
    · exact hsame
    · exact absurd hlogged hspot
    · exact absurd hdue (hnone content)

/-- In whatever order the files are compiled, if no worker fails then each tree has come out as it does on its own, and each
page is where it goes if and only if pages that go to the same place are the same. What is left behind then does not depend
on the order. -/
theorem compiles_delivered (o : Options) (hstdout : o.stdout = false) (log : LogFile) (files : List Bytes)
    (htrees : ∀ path ∈ files, Path.isTreeFile path) (w : World) (hapart : Apart log files w.files) (results : List Result)
    (w' : World) (h : Compiles o log files w results w') :
    List.Forall₂ (fun path r => r.input = path ∧ r.output = Path.outputOf path ∧ r.outcome.toOption = page? o w.files path)
      files results ∧
    ((∀ path ∈ files, ∀ page ∈ page? o w.files path, ∀ name content, (name, content) ∈ deliveries o path page →
      w'.files.read name = .ok content) ↔ Compatible o files w.files) ∧
    (Compatible o files w.files → ∀ results'' w'', Compiles o log files w results'' w'' →
      ∀ spot, ¬ Logged log w.files spot → w''.files.get? spot = w'.files.get? spot) := by
  have harrived {results : List Result} {w' : World} (h : Compiles o log files w results w') :
      ∀ path ∈ files, ∀ page ∈ page? o w.files path, Arrived o log files w (deliveries o path page) w' := by
    intro path hpath
    obtain ⟨i, hi, rfl⟩ := List.mem_iff_getElem.mp hpath
    have hsettled := (compiles_settled hstdout htrees hapart h).2
    exact ((List.forall₂_iff_get.mp hsettled).2 i hi (hsettled.length_eq ▸ hi)).arrived
  obtain ⟨hproceeds, hsettled⟩ := compiles_settled hstdout htrees hapart h
  refine ⟨hsettled.imp fun path r hr => ⟨hr.input, hr.output, hr.page⟩, ⟨fun hall => ?_, fun hcompatible => ?_⟩,
    fun hcompatible results'' w'' h'' spot hspot => ?_⟩
  · rintro spot content content' ⟨path, hpath, page, hpage, name, hdelivery, hplace⟩
      ⟨path', hpath', page', hpage', name', hdelivery', hplace'⟩
    have hcontent := hproceeds.place hdelivery hplace (hall path hpath page hpage name content hdelivery)
    have hcontent' := hproceeds.place hdelivery' hplace' (hall path' hpath' page' hpage' name' content' hdelivery')
    rw [hcontent'] at hcontent
    exact (FileTree.Entry.file.inj (Option.some.inj hcontent)).symm
  · exact fun path hpath page hpage => (harrived h path hpath page hpage).found hcompatible
  · obtain ⟨hproceeds'', -⟩ := compiles_settled hstdout htrees hapart h''
    obtain ⟨hdue, hnone⟩ := hproceeds.get? hcompatible (harrived h) hspot
    obtain ⟨hdue'', hnone''⟩ := hproceeds''.get? hcompatible (harrived h'') hspot
    by_cases hany : ∃ content, Due o files w.files spot content
    · obtain ⟨content, hcontent⟩ := hany
      rw [hdue content hcontent, hdue'' content hcontent]
    · rw [hnone (not_exists.mp hany), hnone'' (not_exists.mp hany)]

end Compiles

/-- Trees side by side, two of which have the same page to go to. -/
def shelf : World :=
  { files := ⟨[(["page.json"], .file "\x7b\"type\":\"text\",\"value\":\"a\"\x7d"),
      (["page.pug.json"], .file "\x7b\"type\":\"text\",\"value\":\"b\"\x7d"),
      (["rest.json"], .file "\x7b\"type\":\"text\",\"value\":\"c\"\x7d")]⟩ }

/-- Two workers at once, the second always a little ahead. -/
def relay : List Turn := (List.range 8).flatMap fun _ => [.go 1, .abandon 0, .go 0]

theorem shelf_delivered :
    let files : List Bytes := ["page.json", "rest.json"]
    let log : LogFile := some "build.log"
    ∃ results w', Compiles {} log files shelf results w' ∧ results.map (·.output) = ["page.php", "rest.php"] ∧
      ∀ results'' w'', Compiles {} log files shelf results'' w'' →
        w''.files.get? ["page.php"] = some (.file "a\n") ∧ w''.files.get? ["rest.php"] = some (.file "c\n") := by
  intro files log
  have hend : ((Crew.start files shelf).run {} false log relay).results?.map (·.map (·.output)) =
      some (["page.php", "rest.php"] : List Bytes) := by
    decide +kernel
  have hpages : ∀ path ∈ files, ∀ page ∈ page? {} shelf.files path, ∀ d ∈ deliveries {} path page,
      ((Crew.start files shelf).run {} false log relay).world.files.read d.1 = .ok d.2 := by
    decide +kernel
  have hplaces : ((Crew.start files shelf).run {} false log relay).world.files.get? ["page.php"] = some (.file "a\n") ∧
      ((Crew.start files shelf).run {} false log relay).world.files.get? ["rest.php"] = some (.file "c\n") := by
    decide +kernel
  have hapart : Apart log files shelf.files := by
    have hnames : ∀ path ∈ files, ∀ name ∈ [path, Path.outputOf path, SourceMap.fileName (Path.outputOf path)],
        (shelf.files.target name).toOption ≠ (shelf.files.target "build.log").toOption := by
      decide +kernel
    rintro path hpath name hname spot hspot ⟨_, hlog, hplace⟩
    obtain rfl := Option.some.inj hlog
    exact hnames path hpath name hname (by rw [hspot, hplace])
  have hunlogged : ∀ spot ∈ ([["page.php"], ["rest.php"]] : List (List Bytes)), ¬ Logged log shelf.files spot := by
    have hnames : ∀ spot ∈ ([["page.php"], ["rest.php"]] : List (List Bytes)),
        (shelf.files.target "build.log").toOption ≠ some spot := by
      decide +kernel
    rintro spot hspot ⟨_, hlog, hplace⟩
    obtain rfl := Option.some.inj hlog
    exact hnames spot hspot (by rw [hplace]; rfl)
  obtain ⟨results, hresults, houtputs⟩ := Option.map_eq_some_iff.mp hend
  obtain ⟨-, hiff, hsame⟩ := compiles_delivered {} rfl log files (by decide) shelf hapart results _ ⟨relay, hresults, rfl⟩
  have hcompatible := hiff.mp fun path hpath page hpage name content hdelivery =>
    hpages path hpath page hpage (name, content) hdelivery
  refine ⟨results, _, ⟨relay, hresults, rfl⟩, houtputs, fun results'' w'' h'' => ⟨?_, ?_⟩⟩
  · rw [hsame hcompatible results'' w'' h'' _ (hunlogged _ List.mem_cons_self), hplaces.1]
  · rw [hsame hcompatible results'' w'' h'' _ (hunlogged _ (List.mem_cons_of_mem _ List.mem_cons_self)), hplaces.2]

/-- Nothing keeps two pages from going to the same place. -/
theorem shelf_not_delivered : ¬ ∀ (o : Options) (files : List Bytes) (w : World) (results : List Result) (w' : World),
    o.stdout = false → files.Nodup → (∀ path ∈ files, Path.isTreeFile path) → Compiles o none files w results w' →
    ∀ r ∈ results, ∀ page ∈ r.outcome.toOption, w'.files.read r.output = .ok page.text := by
  intro h
  let files : List Bytes := ["page.json", "page.pug.json"]
  let pages : List (Bytes × Option Bytes) := [("page.php", some "a\n"), ("page.php", some "b\n")]
  have hend : (((Crew.start files shelf).run {} false none relay).results?.map fun results =>
      results.map fun r => (r.output, r.outcome.toOption.map (·.text))) = some pages := by
    decide +kernel
  obtain ⟨results, hresults, hpages⟩ := Option.map_eq_some_iff.mp hend
  have hall := h {} files shelf results _ rfl (by decide) (by decide) ⟨relay, hresults, rfl⟩
  have hread (text : Bytes) (hmem : (("page.php" : Bytes), some text) ∈ pages) :
      ((Crew.start files shelf).run {} false none relay).world.files.read "page.php" = .ok text := by
    rw [← hpages] at hmem
    obtain ⟨r, hr, hpair⟩ := List.mem_map.mp hmem
    obtain ⟨houtput, htext⟩ := Prod.mk.inj hpair
    obtain ⟨page, hpage, rfl⟩ := Option.map_eq_some_iff.mp htext
    rw [← houtput]
    exact hall r hr page hpage
  have hfirst := hread "a\n" List.mem_cons_self
  rw [hread "b\n" (List.mem_cons_of_mem _ List.mem_cons_self)] at hfirst
  exact absurd hfirst (by decide)

end Stencil.Run
