import MethodMetadata.Archive.Processing
import MethodMetadata.Archive.Writing
import MethodMetadata.Proofs.Reprocessing

/-! A pass over an archive is a pass over its classes. All other entries stay where and as they are,
and what was made of an archive is made of it again. -/
namespace MethodMetadata.Archive

variable {σ : Type} {handler : Handler σ} {state last : σ}

def classBytes? (entry : ArchiveEntry) : Option ByteArray :=
  match entry.content with
  | .directory => none
  | .file bytes _ => if ArchiveEntry.isClass entry.name then some bytes else none

/-- The classes of an archive in the order of its entries. -/
def classesIn (entries : List ArchiveEntry) : List ByteArray :=
  entries.filterMap classBytes?

/-- What a pass may make of an entry: of a class one that is compressed, of any other entry nothing
but itself. -/
structure Keeps (entry made : ArchiveEntry) : Prop where
  name : made.name = entry.name
  timestamp : made.timestamp = entry.timestamp
  other : classBytes? entry = none → made.content = entry.content
  compressed : (classBytes? entry).isSome → ∃ bytes, made.content = .file bytes false

/-- An entry with other bytes in it, which are compressed. -/
def withBytes (entry : ArchiveEntry) (bytes : ByteArray) : ArchiveEntry :=
  { entry with content := .file bytes false }

private theorem classesIn_cons_of_none {entry : ArchiveEntry} {entries : List ArchiveEntry}
    (h : classBytes? entry = none) : classesIn (entry :: entries) = classesIn entries :=
  List.filterMap_cons_none h

private theorem classesIn_cons_of_some {entry : ArchiveEntry} {entries : List ArchiveEntry}
    {bytes : ByteArray} (h : classBytes? entry = some bytes) :
    classesIn (entry :: entries) = bytes :: classesIn entries :=
  List.filterMap_cons_some h

private theorem isClass_of_classBytes? {entry : ArchiveEntry} {bytes : ByteArray}
    (h : classBytes? entry = some bytes) : ∃ stored, entry.content = .file bytes stored ∧
      ArchiveEntry.isClass entry.name = true := by
  unfold classBytes? at h
  split at h
  next => cases h
  next found stored hcontent =>
    split at h
    next hclass =>
      cases h
      exact ⟨stored, hcontent, hclass⟩
    next => cases h

private theorem classBytes?_withBytes {entry : ArchiveEntry} {bytes : ByteArray}
    (h : classBytes? entry = some bytes) (made : ByteArray) :
    classBytes? (withBytes entry made) = some made := by
  obtain ⟨stored, -, hclass⟩ := isClass_of_classBytes? h
  exact if_pos hclass

private theorem processRead_of_none (handler : Handler σ) (state : σ) {entry : ArchiveEntry}
    (h : classBytes? entry = none) :
    (processRead handler state (.ok entry)).result = .ok entry ∧
      (processRead handler state (.ok entry)).state = state := by
  cases hcontent : entry.content with
  | directory => simp [processRead, processEntry, hcontent]
  | file bytes stored =>
    have hother : ArchiveEntry.isClass entry.name = false := by
      simpa [classBytes?, hcontent] using h
    simp [processRead, processEntry, hcontent, hother]

private theorem processRead_of_some (handler : Handler σ) (state : σ) {entry : ArchiveEntry}
    {bytes : ByteArray} (h : classBytes? entry = some bytes) :
    (processRead handler state (.ok entry)).result =
        (handler state bytes).result.map (withBytes entry) ∧
      (processRead handler state (.ok entry)).state = (handler state bytes).state := by
  obtain ⟨stored, hcontent, hclass⟩ := isClass_of_classBytes? h
  simp only [processRead, processEntry, hcontent, hclass, if_true]
  cases (handler state bytes).result with
  | error e => exact ⟨rfl, rfl⟩
  | ok made => exact ⟨rfl, rfl⟩

private theorem keeps_self {entry : ArchiveEntry} (h : classBytes? entry = none) :
    Keeps entry entry :=
  ⟨rfl, rfl, fun _ => rfl, fun hsome => absurd hsome (by simp [h])⟩

private theorem keeps_withBytes {entry : ArchiveEntry} {bytes : ByteArray}
    (h : classBytes? entry = some bytes) (made : ByteArray) : Keeps entry (withBytes entry made) :=
  ⟨rfl, rfl, fun hnone => absurd hnone (by simp [h]), fun _ => ⟨made, rfl⟩⟩

private theorem runs_classesIn {entries done : List ArchiveEntry}
    (h : Pass.Runs (processRead handler) state (entries.map .ok) done last) :
    List.Forall₂ Keeps entries done ∧
      Pass.Runs handler state (classesIn entries) (classesIn done) last := by
  induction entries generalizing state done with
  | nil =>
    cases h
    exact ⟨.nil, .nil⟩
  | cons entry entries ih =>
    rcases h with _ | ⟨head, tail⟩
    cases hb : classBytes? entry with
    | none =>
      obtain ⟨hresult, hstate⟩ := processRead_of_none handler state hb
      cases hresult.symm.trans head
      rw [hstate] at tail
      obtain ⟨hkept, hruns⟩ := ih tail
      refine ⟨.cons (keeps_self hb) hkept, ?_⟩
      rw [classesIn_cons_of_none hb, classesIn_cons_of_none hb]
      exact hruns
    | some bytes =>
      obtain ⟨hresult, hstate⟩ := processRead_of_some handler state hb
      obtain ⟨made, hmade, rfl⟩ := map_eq_ok_iff.mp (hresult.symm.trans head)
      rw [hstate] at tail
      obtain ⟨hkept, hruns⟩ := ih tail
      refine ⟨.cons (keeps_withBytes hb made) hkept, ?_⟩
      rw [classesIn_cons_of_some hb, classesIn_cons_of_some (classBytes?_withBytes hb made)]
      exact .cons hmade hruns

private theorem fails_of_processRead {entry : ArchiveEntry} {e : InjectionError}
    (h : (processRead handler state (.ok entry)).result = .error e) :
    ∃ bytes, classBytes? entry = some bytes ∧ (handler state bytes).result = .error e ∧
      (processRead handler state (.ok entry)).state = (handler state bytes).state := by
  cases hb : classBytes? entry with
  | none => cases (processRead_of_none handler state hb).1.symm.trans h
  | some bytes =>
    obtain ⟨hresult, hstate⟩ := processRead_of_some handler state hb
    exact ⟨bytes, rfl, map_eq_error_iff.mp (hresult.symm.trans h), hstate⟩

/-- What a pass over an archive comes to: the entries are kept in order while the handler runs on
the classes one after the other, or the pass ends with the first class on which the handler fails,
in the state that this leaves. -/
inductive Processed (handler : Handler σ) (state : σ) (entries : List ArchiveEntry) :
    Pass σ InjectionError ArchiveEntry → Prop
  | whole {pass : Pass σ InjectionError ArchiveEntry} (failure : pass.failure = none)
      (kept : List.Forall₂ Keeps entries pass.done)
      (runs : Pass.Runs handler state (classesIn entries) (classesIn pass.done) pass.state) :
      Processed handler state entries pass
  | stopped {pass : Pass σ InjectionError ArchiveEntry} {front rest : List ByteArray}
      {bytes : ByteArray} {mid : σ} {e : InjectionError}
      (classes : classesIn entries = front ++ bytes :: rest)
      (runs : Pass.Runs handler state front (classesIn pass.done) mid)
      (fails : (handler mid bytes).result = .error e) (failure : pass.failure = some e)
      (left : pass.state = (handler mid bytes).state) : Processed handler state entries pass

private theorem processed_process (handler : Handler σ) (state : σ) (entries : List ArchiveEntry) :
    Processed handler state entries (process handler state (entries.map .ok)) := by
  rcases Pass.run_cases (processRead handler) state (entries.map .ok) with
    ⟨hf, hruns⟩ | ⟨front, read, rest, mid, e, hsplit, hruns, he, hf, hs⟩
  · obtain ⟨hkept, hclasses⟩ := runs_classesIn hruns
    exact .whole hf hkept hclasses
  · obtain ⟨before, behind, rfl, rfl, hbehind⟩ := List.map_eq_append_iff.mp hsplit
    obtain ⟨entry, after, rfl, rfl, rfl⟩ := List.map_eq_cons_iff.mp hbehind
    obtain ⟨bytes, hb, hfails, hstate⟩ := fails_of_processRead he
    have hclasses : classesIn (before ++ entry :: after) =
        classesIn before ++ bytes :: classesIn after := by
      rw [← classesIn_cons_of_some hb]
      exact List.filterMap_append
    exact .stopped hclasses (runs_classesIn hruns).2 hfails hf (hs.trans hstate)

/-! A job on what a job has made. -/

private theorem runs_of_classesIn {entries : List ArchiveEntry}
    (hcompressed : ∀ entry ∈ entries, ∀ bytes ∈ classBytes? entry,
      entry.content = .file bytes false)
    (h : Pass.Runs handler state (classesIn entries) (classesIn entries) last) :
    Pass.Runs (processRead handler) state (entries.map .ok) entries last := by
  induction entries generalizing state with
  | nil =>
    cases h
    exact .nil
  | cons entry entries ih =>
    have hrest := fun other ho => hcompressed other (List.mem_cons_of_mem _ ho)
    cases hb : classBytes? entry with
    | none =>
      obtain ⟨hresult, hstate⟩ := processRead_of_none handler state hb
      rw [classesIn_cons_of_none hb] at h
      refine .cons hresult ?_
      rw [hstate]
      exact ih hrest h
    | some bytes =>
      obtain ⟨hresult, hstate⟩ := processRead_of_some handler state hb
      rw [classesIn_cons_of_some hb] at h
      rcases h with _ | ⟨head, tail⟩
      have hsame : withBytes entry bytes = entry := by
        rw [withBytes, ← hcompressed entry List.mem_cons_self bytes hb]
      refine .cons (by rw [hresult, head, Except.map, hsame]) ?_
      rw [hstate]
      exact ih hrest tail

private theorem compressed_of_keeps {entries done : List ArchiveEntry}
    (h : List.Forall₂ Keeps entries done) :
    ∀ made ∈ done, ∀ bytes ∈ classBytes? made, made.content = .file bytes false := by
  intro made hmade bytes hb
  obtain ⟨entry, -, hkeeps⟩ := exists_of_mem_right h hmade
  -- The name decides whether a file is a class, so that what is one now was one before.
  obtain ⟨stored, hcontent, hclass⟩ := isClass_of_classBytes? hb
  rw [hkeeps.name] at hclass
  cases hentry : classBytes? entry with
  | none =>
    have hsame := hkeeps.other hentry
    rw [hcontent] at hsame
    have : classBytes? entry = some bytes := by simp [classBytes?, ← hsame, hclass]
    cases hentry.symm.trans this
  | some found =>
    obtain ⟨out, hout⟩ := hkeeps.compressed (by rw [hentry]; rfl)
    rw [hcontent] at hout
    cases hout
    exact hcontent

private theorem processArray_again (inj : Injector) (bytes made : ByteArray)
    (h : (inj.processArray bytes).result = .ok made) (hl : made.size < 2 ^ 32) :
    (inj.processArray made).result = .ok made ∧
      (inj.processArray made).state = (inj.processArray bytes).state := by
  obtain ⟨out, hout, rfl⟩ := map_eq_ok_iff.mp h
  have hlength : out.length < 2 ^ 32 := hl
  obtain ⟨hresult, hstate⟩ :=
    Injector.processClass_again hout (Injector.bodiesFit_of_length_lt hout hlength)
  exact ⟨map_eq_ok_iff.mpr ⟨out, hresult, rfl⟩, hstate⟩

private theorem process_again {inj : Injector} {entries : List ArchiveEntry}
    (hf : (process Injector.processArray inj (entries.map .ok)).failure = none)
    (hl : ∀ made ∈ classesIn (process Injector.processArray inj (entries.map .ok)).done,
      made.size < 2 ^ 32) :
    let pass := process Injector.processArray inj (entries.map .ok)
    let again := process Injector.processArray inj (pass.done.map .ok)
    again.failure = none ∧ again.done = pass.done ∧ again.state = pass.state := by
  intro pass again
  cases processed_process Injector.processArray inj entries with
  | stopped _ _ _ failure => cases hf.symm.trans failure
  | whole _ kept runs =>
    have hagain := runs.again processArray_again hl
    obtain ⟨hresult, hstate⟩ :=
      Pass.run_of_runs (runs_of_classesIn (compressed_of_keeps kept) hagain)
    obtain ⟨hfailure, hdone⟩ := Pass.result_eq_ok_iff.mp hresult
    exact ⟨hfailure, hdone, hstate⟩

/-- With any handler, a pass over an archive keeps the entries in order and runs the handler on the
classes one after the other, up to the first one on which it fails. A job on the archive that a job
has made makes the same entries of it, and ends with the same output table and the same index,
however archives are read and written, if this one is read back as it was written. It can have no
file of four gigabytes or more, as the sizes of files are written in four bytes. -/
theorem process_in_order :
    (∀ {σ : Type} (handler : Handler σ) (state : σ) (entries : List ArchiveEntry),
      Processed handler state entries (process handler state (entries.map .ok))) ∧
    ∀ {β ε : Type} (read : β → Except ε (List (Except InjectionError ArchiveEntry)))
      (write : List ArchiveEntry → β) (inj : Injector) (entries : List ArchiveEntry),
      let pass := process Injector.processArray inj (entries.map .ok)
      pass.failure = none → (∀ made ∈ classesIn pass.done, made.size < 2 ^ 32) →
      read (write pass.done) = .ok (pass.done.map .ok) →
        ∃ again, (read (write pass.done)).map (process Injector.processArray inj) = .ok again ∧
          again.failure = none ∧ again.done = pass.done ∧ again.state = pass.state := by
  refine ⟨processed_process, ?_⟩
  intro β ε read write inj entries pass hf hl hread
  exact ⟨_, map_eq_ok_iff.mpr ⟨_, hread, rfl⟩, process_again hf hl⟩

end MethodMetadata.Archive

namespace MethodMetadata.Assembly

/-- A class with nothing but an abstract method that has a parameter. -/
def abstractBytes : List UInt8 :=
  let method : MemberSource :=
    { flags := 0x0401, name := "m", descriptor := "(I)V", code := none, exceptions := none,
      attributes := [] }
  (assemble { queueSource with
    thisName := "A", superName := none, methods := [method], attributes := [] }).toOption.getD []

end MethodMetadata.Assembly

namespace MethodMetadata.Archive

/-- A directory, a file that is kept as it is, and a class that is compressed by the job. -/
def sampleEntries : List ArchiveEntry :=
  [⟨"a/", ⟨0x21, 0⟩, .directory⟩, ⟨"a/b.txt", ⟨0x21, 8⟩, .file ⟨#[0x62]⟩ true⟩,
    ⟨"A.class", ⟨0x21, 16⟩, .file ⟨Assembly.abstractBytes.toArray⟩ true⟩]

/-- The job on the archive of three entries, and again on the archive that it writes. -/
theorem process_in_order_sample :
    let inj := Injector.new { managedNamespace := "A", initialIndex := 1 } MappingTable.empty
    let pass := process Injector.processArray inj (sampleEntries.map .ok)
    (pass.failure = none ∧ pass.state.output.toList = [("A.m(I)V", ⟨"", some "par1"⟩)]) ∧
      ∃ again, (readFile (write pass.done)).map (process Injector.processArray inj) = .ok again ∧
        again.failure = none ∧ again.done = pass.done ∧ again.state = pass.state := by
  intro inj pass
  have hpass : pass.failure = none ∧
      pass.state.output.toList = [("A.m(I)V", ⟨"", some "par1"⟩)] ∧
      ∀ made ∈ classesIn pass.done, made.size < 2 ^ 32 := by decide +kernel
  have hread : readFile (write pass.done) = .ok (pass.done.map .ok) := by decide +kernel
  obtain ⟨hf, houtput, hl⟩ := hpass
  exact ⟨⟨hf, houtput⟩, process_in_order.2 readFile write inj sampleEntries hf hl hread⟩

end MethodMetadata.Archive
