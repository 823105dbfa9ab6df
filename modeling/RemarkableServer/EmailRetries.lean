import RemarkableServer.Email

/-!
# Mail that is refused and sent again

The processing of a message is a sequence of steps that is known beforehand and stops at the
first that fails. What was committed to the tree by then stays there.
-/
namespace EmailRetries

open RustText Email

variable {s : Server} {run : Run} {sender : Text} {recipients : List Text} {mail : ParsedMail} {w w' w'' : World}

/-! ## The steps -/

inductive Step where
  | write
  | commit (d : NewDocument)
  | undecodable
  deriving DecidableEq

def asDocument (a : Attachment) : Option NewDocument :=
  (documentExt a.filename a.contentType).map fun ext => ⟨stripExtension a.filename, ext, a.data⟩

/-- The document, and its row. -/
def attachmentSteps (a : Attachment) : List Step := (asDocument a).toList.flatMap fun d => [.commit d, .write]

/-- The row of the message, its attachments, and the status. -/
def recipientSteps (s : Server) (mail : ParsedMail) : List Step :=
  .write :: match extractAttachments s mail with
    | none => [.undecodable]
    | some attachments => attachments.flatMap attachmentSteps ++ [.write]

def reachable (s : Server) (recipients : List Text) : List Text :=
  recipients.filter fun recipient => (s.extractDeviceId recipient).isSome

def steps (s : Server) (recipients : List Text) (mail : ParsedMail) : List Step :=
  (reachable s recipients).flatMap fun _ => recipientSteps s mail

/-- As step number `i` of the processing. -/
def Step.fails (run : Run) (i : Nat) : Step → Bool
  | .undecodable => true
  | _ => run.fails i

/-- The steps before the first that fails. -/
def reached (run : Run) : Nat → List Step → List Step
  | _, [] => []
  | i, p :: ps => if p.fails run i then [] else p :: reached run (i + 1) ps

/-- The documents that steps commit. -/
def committed (run : Run) : Nat → List Step → List Document
  | _, [] => []
  | i, .commit d :: ps => ⟨run.uuid i, d⟩ :: committed run (i + 1) ps
  | i, _ :: ps => committed run (i + 1) ps

/-- Every step is taken, or no document is committed before the first that fails. -/
def FailsBeforeCommits (run : Run) (ps : List Step) : Prop :=
  reached run 0 ps = ps ∨ ∀ d, Step.commit d ∉ reached run 0 ps

theorem reached_append (ps qs : List Step) (i : Nat) :
    reached run i (ps ++ qs) =
      if reached run i ps = ps then ps ++ reached run (i + ps.length) qs else reached run i ps := by
  induction ps generalizing i with
  | nil => simp [reached]
  | cons p ps ih =>
    rw [List.cons_append, reached, reached]
    by_cases hp : p.fails run i = true
    · simp [hp]
    · rw [if_neg hp, if_neg hp, ih]
      by_cases hps : reached run (i + 1) ps = ps
      · simp [hps, Nat.add_comm, Nat.add_left_comm]
      · simp [hps]

theorem committed_append (ps qs : List Step) (i : Nat) :
    committed run i (ps ++ qs) = committed run i ps ++ committed run (i + ps.length) qs := by
  induction ps generalizing i with
  | nil => rfl
  | cons p ps ih =>
    rw [List.cons_append]
    cases p with
    | commit d => simp [committed, ih, Nat.add_comm, Nat.add_left_comm]
    | write => simp [committed, ih, Nat.add_comm, Nat.add_left_comm]
    | undecodable => simp [committed, ih, Nat.add_comm, Nat.add_left_comm]

theorem reached_isPrefix (run : Run) (ps : List Step) (i : Nat) : reached run i ps <+: ps := by
  induction ps generalizing i with
  | nil => exact List.prefix_refl _
  | cons p ps ih =>
    rw [reached]
    split
    · exact List.nil_prefix
    · exact List.prefix_cons_inj p |>.mpr (ih (i + 1))

/-- What some steps do: they stop at the first that fails. -/
structure Does (run : Run) (ps : List Step) (w w' : World) (ok : Bool) : Prop where
  documents : w'.documents = w.documents ++ committed run w.steps (reached run w.steps ps)
  complete : ok = true ↔ reached run w.steps ps = ps
  counted : ok = true → w'.steps = w.steps + ps.length

theorem Does.nil : Does run [] w w true where
  documents := (List.append_nil _).symm
  complete := iff_of_true rfl rfl
  counted := fun _ => rfl

theorem Does.append {ps qs : List Step} {ok : Bool} (h : Does run ps w w' true) (h' : Does run qs w' w'' ok) :
    Does run (ps ++ qs) w w'' ok := by
  have hps := h.complete.mp rfl
  have hsteps := h.counted rfl
  have hreached : reached run w.steps (ps ++ qs) = ps ++ reached run w'.steps qs := by
    rw [reached_append, if_pos hps, hsteps]
  constructor
  · rw [hreached, committed_append, ← hsteps, h'.documents, h.documents, hps, List.append_assoc]
  · rw [hreached, List.append_cancel_left_eq]
    exact h'.complete
  · intro hok
    rw [h'.counted hok, hsteps, List.length_append, Nat.add_assoc]

/-- Nothing comes after a failure. -/
theorem Does.stop {ps : List Step} (h : Does run ps w w' false) (qs : List Step) : Does run (ps ++ qs) w w' false := by
  have hps : reached run w.steps ps ≠ ps := fun hps => Bool.false_ne_true (h.complete.mpr hps)
  have hreached : reached run w.steps (ps ++ qs) = reached run w.steps ps := by rw [reached_append, if_neg hps]
  have hshort : reached run w.steps ps ≠ ps ++ qs := by
    intro hall
    have hstart := reached_isPrefix run ps w.steps
    have hlength := congrArg List.length hall
    rw [List.length_append] at hlength
    exact hps (hstart.eq_of_length (le_antisymm hstart.length_le (by omega)))
  constructor
  · rw [hreached]
    exact h.documents
  · rw [hreached]
    exact iff_of_false Bool.false_ne_true hshort
  · exact fun hok => nomatch hok

/-! ## The code takes the steps -/

theorem attempt_write {effect : World → World} (h : ∀ w, (effect w).documents = w.documents) (w : World) :
    Does run [.write] w (run.attempt effect w).1 (run.attempt effect w).2 := by
  unfold Run.attempt
  by_cases hfails : run.fails w.steps = true
  · exact ⟨by simp [hfails, reached, Step.fails, committed], by simp [hfails, reached, Step.fails], by simp [hfails]⟩
  · exact ⟨by simp [hfails, reached, Step.fails, committed, h], by simp [hfails, reached, Step.fails], by simp [hfails]⟩

theorem createDocument_does (run : Run) (d : NewDocument) (w : World) :
    Does run [.commit d] w (createDocument run d w).1 (createDocument run d w).2 := by
  unfold createDocument Run.attempt
  by_cases hfails : run.fails w.steps = true
  · exact ⟨by simp [hfails, reached, Step.fails, committed], by simp [hfails, reached, Step.fails], by simp [hfails]⟩
  · exact ⟨by simp [hfails, reached, Step.fails, committed], by simp [hfails, reached, Step.fails], by simp [hfails]⟩

theorem insertAttachment_does (run : Run) (emailId docId : Text) (a : Attachment) (w : World) :
    Does run [.write] w (insertAttachment run emailId docId a w).1 (insertAttachment run emailId docId a w).2 := by
  unfold insertAttachment
  apply attempt_write
  intro w
  rfl

theorem insertEmail_does (run : Run) (sender recipient subject deviceId : Text) (w : World) :
    Does run [.write] w (insertEmail run sender recipient subject deviceId w).1
      (insertEmail run sender recipient subject deviceId w).2 := by
  unfold insertEmail
  apply attempt_write
  intro w
  rfl

theorem updateStatus_does (run : Run) (emailId status : Text) (w : World) :
    Does run [.write] w (updateStatus run emailId status w).1 (updateStatus run emailId status w).2 := by
  unfold updateStatus
  apply attempt_write
  intro w
  rfl

theorem undecodable_does (w : World) : Does run [.undecodable] w w false := by
  exact ⟨by simp [reached, Step.fails, committed], by simp [reached, Step.fails], by simp⟩

theorem syncAttachments_does (run : Run) (emailId : Text) (attachments : List Attachment) (synced : Nat) (w : World) :
    Does run (attachments.flatMap attachmentSteps) w (syncAttachments run emailId attachments synced w).1
      (syncAttachments run emailId attachments synced w).2.isSome := by
  induction attachments generalizing synced w with
  | nil => exact Does.nil
  | cons a attachments ih =>
    rw [syncAttachments, List.flatMap_cons, attachmentSteps, asDocument]
    cases documentExt a.filename a.contentType with
    | none => exact ih synced w
    | some ext =>
      have hcreate := createDocument_does run ⟨stripExtension a.filename, ext, a.data⟩ w
      dsimp only [Option.map_some, Option.toList_some, List.flatMap_cons, List.flatMap_nil]
      cases hc : createDocument run ⟨stripExtension a.filename, ext, a.data⟩ w with
      | mk w' created =>
        rw [hc] at hcreate
        cases created with
        | false => exact (hcreate.stop [.write]).stop _
        | true =>
          have hinsert := insertAttachment_does run emailId (run.uuid w.steps) a w'
          dsimp only
          cases hi : insertAttachment run emailId (run.uuid w.steps) a w' with
          | mk w'' inserted =>
            rw [hi] at hinsert
            have hboth := hcreate.append hinsert
            cases inserted with
            | false => exact hboth.stop _
            | true => exact hboth.append (ih (synced + 1) w'')

theorem processRecipients_does (s : Server) (run : Run) (sender : Text) (mail : ParsedMail) (recipients : List Text)
    (total : Nat) (w : World) :
    Does run (steps s recipients mail) w (processRecipients s run sender mail recipients total w).1
      (processRecipients s run sender mail recipients total w).2.isSome := by
  induction recipients generalizing total w with
  | nil => exact Does.nil
  | cons recipient recipients ih =>
    rw [processRecipients, steps, reachable]
    cases hid : s.extractDeviceId recipient with
    | none =>
      rw [List.filter_cons_of_neg (by simp [hid])]
      exact ih total w
    | some deviceId =>
      rw [List.filter_cons_of_pos (by simp [hid]), List.flatMap_cons, recipientSteps]
      dsimp only
      have hemail := insertEmail_does run sender recipient (subject mail) deviceId w
      cases he : insertEmail run sender recipient (subject mail) deviceId w with
      | mk w₁ inserted =>
        rw [he] at hemail
        cases inserted with
        | false => exact (hemail.stop _).stop _
        | true =>
          cases ha : extractAttachments s mail with
          | none => exact (hemail.append (undecodable_does w₁)).stop _
          | some attachments =>
            have hsync := syncAttachments_does run (run.uuid w.steps) attachments 0 w₁
            dsimp only
            cases hs : syncAttachments run (run.uuid w.steps) attachments 0 w₁ with
            | mk w₂ synced =>
              rw [hs] at hsync
              have hboth := hemail.append hsync
              cases synced with
              | none => exact (hboth.stop [.write]).stop _
              | some synced =>
                have hstatus := updateStatus_does run (run.uuid w.steps)
                  (if 0 < synced then "synced".toList else "no_attachments".toList) w₂
                dsimp only
                cases hu : updateStatus run (run.uuid w.steps)
                    (if 0 < synced then "synced".toList else "no_attachments".toList) w₂ with
                | mk w₃ updated =>
                  rw [hu] at hstatus
                  have hall := hboth.append hstatus
                  cases updated with
                  | false => exact hall.stop _
                  | true =>
                    have hrest := ih (total + synced) w₃
                    rw [steps, recipientSteps, ha] at hrest
                    exact hall.append hrest

theorem processEmail_spec (s : Server) (run : Run) (sender : Text) (recipients : List Text) (mail : ParsedMail) (w : World) :
    (processEmail s run sender recipients mail w).1.documents =
        w.documents ++ committed run 0 (reached run 0 (steps s recipients mail)) ∧
      ((processEmail s run sender recipients mail w).2.isSome = true ↔
        reached run 0 (steps s recipients mail) = steps s recipients mail) := by
  have h := processRecipients_does s run sender mail recipients 0 { w with steps := 0 }
  exact ⟨h.documents, h.complete⟩

/-! ## Tries -/

/-- The documents that steps commit, whatever ids they get. -/
def wanted : List Step → List NewDocument
  | [] => []
  | .commit d :: ps => d :: wanted ps
  | _ :: ps => wanted ps

theorem map_new_committed (run : Run) (i : Nat) (ps : List Step) : (committed run i ps).map (·.new) = wanted ps := by
  induction ps generalizing i with
  | nil => rfl
  | cons p ps ih =>
    cases p with
    | commit d => exact congrArg (d :: ·) (ih (i + 1))
    | write => exact ih (i + 1)
    | undecodable => exact ih (i + 1)

theorem wanted_eq_nil {ps : List Step} : wanted ps = [] ↔ ∀ d, Step.commit d ∉ ps := by
  induction ps with
  | nil => simp [wanted]
  | cons p ps ih =>
    cases p with
    | commit d => exact iff_of_false (List.cons_ne_nil _ _) fun h => h d List.mem_cons_self
    | write => simp [wanted, ih]
    | undecodable => simp [wanted, ih]

theorem wanted_append (ps qs : List Step) : wanted (ps ++ qs) = wanted ps ++ wanted qs := by
  induction ps with
  | nil => rfl
  | cons p ps ih =>
    cases p with
    | commit d => exact congrArg (d :: ·) ih
    | write => exact ih
    | undecodable => exact ih

theorem wanted_attachments (attachments : List Attachment) :
    wanted (attachments.flatMap attachmentSteps) = attachments.filterMap asDocument := by
  induction attachments with
  | nil => rfl
  | cons a attachments ih =>
    rw [List.flatMap_cons, wanted_append, ih, attachmentSteps]
    cases h : asDocument a with
    | none => rw [List.filterMap_cons_none h]; rfl
    | some d => rw [List.filterMap_cons_some h]; rfl

/-- Each attachment that can be a document, once for each recipient with a device. -/
def onePerRecipient (s : Server) (recipients : List Text) (mail : ParsedMail) : List NewDocument :=
  (reachable s recipients).flatMap fun _ => ((extractAttachments s mail).getD []).filterMap asDocument

theorem wanted_steps (s : Server) (recipients : List Text) (mail : ParsedMail) :
    wanted (steps s recipients mail) = onePerRecipient s recipients mail := by
  unfold steps onePerRecipient
  induction reachable s recipients with
  | nil => rfl
  | cons recipient recipients ih =>
    rw [List.flatMap_cons, List.flatMap_cons, wanted_append, ih, recipientSteps]
    congr 1
    cases extractAttachments s mail with
    | none => rfl
    | some attachments =>
      have hend := wanted_append (attachments.flatMap attachmentSteps) [.write]
      rw [wanted_attachments] at hend
      exact hend.trans (List.append_nil _)

/-- The message is processed again and again. -/
def tries (s : Server) (sender : Text) (recipients : List Text) (mail : ParsedMail) :
    List Run → World → World × List (Option Nat)
  | [], w => (w, [])
  | run :: runs, w =>
    let (w, result) := processEmail s run sender recipients mail w
    let (w, results) := tries s sender recipients mail runs w
    (w, result :: results)

/-- If the message is refused, the tree is as it was. -/
def LeavesNothing (s : Server) (sender : Text) (recipients : List Text) (mail : ParsedMail) (run : Run) : Prop :=
  ∀ w, (processEmail s run sender recipients mail w).2 = none →
    (processEmail s run sender recipients mail w).1.documents = w.documents

theorem leavesNothing_iff (s : Server) (sender : Text) (recipients : List Text) (mail : ParsedMail) (run : Run) :
    LeavesNothing s sender recipients mail run ↔ FailsBeforeCommits run (steps s recipients mail) := by
  have hnothing : committed run 0 (reached run 0 (steps s recipients mail)) = [] ↔
      ∀ d, Step.commit d ∉ reached run 0 (steps s recipients mail) := by
    rw [← wanted_eq_nil, ← map_new_committed run 0, List.map_eq_nil_iff]
  constructor
  · intro h
    by_cases hall : reached run 0 (steps s recipients mail) = steps s recipients mail
    · exact .inl hall
    · obtain ⟨hdocuments, hsome⟩ := processEmail_spec s run sender recipients mail ⟨[], [], [], 0⟩
      have hnone := Option.not_isSome_iff_eq_none.mp (hsome.not.mpr hall)
      rw [h _ hnone, List.nil_append] at hdocuments
      exact .inr (hnothing.mp hdocuments.symm)
  · intro h w hnone
    obtain ⟨hdocuments, hsome⟩ := processEmail_spec s run sender recipients mail w
    have hall : reached run 0 (steps s recipients mail) ≠ steps s recipients mail := by
      intro hall
      rw [hnone] at hsome
      exact absurd (hsome.mpr hall) Bool.false_ne_true
    rw [hdocuments, hnothing.mpr (h.resolve_left hall), List.append_nil]

theorem tries_documents (s : Server) (sender : Text) (recipients : List Text) (mail : ParsedMail) (runs : List Run)
    (w : World) :
    (tries s sender recipients mail runs w).1.documents =
      w.documents ++ runs.flatMap fun run => committed run 0 (reached run 0 (steps s recipients mail)) := by
  induction runs generalizing w with
  | nil => exact (List.append_nil _).symm
  | cons run runs ih =>
    rw [tries, List.flatMap_cons, ← List.append_assoc, ← (processEmail_spec s run sender recipients mail w).1]
    exact ih _

theorem reached_of_refused {runs : List Run} (h : ∀ result ∈ (tries s sender recipients mail runs w).2, result = none) :
    ∀ run ∈ runs, reached run 0 (steps s recipients mail) ≠ steps s recipients mail := by
  induction runs generalizing w with
  | nil => exact fun _ hrun => nomatch hrun
  | cons run runs ih =>
    rw [tries] at h
    obtain ⟨hnone, hrest⟩ := List.forall_mem_cons.mp h
    refine List.forall_mem_cons.mpr ⟨fun hall => ?_, ih hrest⟩
    have hsome := (processEmail_spec s run sender recipients mail w).2.mpr hall
    rw [hnone] at hsome
    cases hsome

/-- A message that is refused leaves no document exactly if it fails before the first commit, and one that is sent
until it is accepted becomes one document for each attachment and recipient exactly if all its refusals do. -/
theorem refusals_leave_nothing_iff (s : Server) (sender : Text) (recipients : List Text) (mail : ParsedMail) :
    (∀ run, LeavesNothing s sender recipients mail run ↔ FailsBeforeCommits run (steps s recipients mail)) ∧
      ∀ (runs : List Run) (last : Run) (w : World), (∀ result ∈ (tries s sender recipients mail runs w).2, result = none) →
        (processEmail s last sender recipients mail (tries s sender recipients mail runs w).1).2.isSome = true →
        ((processEmail s last sender recipients mail (tries s sender recipients mail runs w).1).1.documents.map (·.new) =
            w.documents.map (·.new) ++ onePerRecipient s recipients mail ↔
          ∀ run ∈ runs, FailsBeforeCommits run (steps s recipients mail)) := by
  refine ⟨leavesNothing_iff s sender recipients mail, fun runs last w hrefused haccepted => ?_⟩
  obtain ⟨hdocuments, hall⟩ := processEmail_spec s last sender recipients mail (tries s sender recipients mail runs w).1
  rw [hdocuments, hall.mp haccepted, tries_documents, List.map_append, List.map_append, map_new_committed, wanted_steps,
    List.append_left_inj, List.append_right_eq_self, List.map_eq_nil_iff, List.flatMap_eq_nil_iff]
  refine forall₂_congr fun run hrun => ?_
  rw [FailsBeforeCommits, or_iff_right (reached_of_refused hrefused run hrun), ← wanted_eq_nil,
    ← map_new_committed run 0, List.map_eq_nil_iff]

/-! ## A mail with one attachment -/

def sampleServer : Server := ⟨"local".toList, ["D1".toList], List.map Char.toLower, List.map Char.toUpper⟩

def sampleMail : ParsedMail := ⟨[], "application/pdf".toList, some "a.pdf".toList, none, some [0x25], []⟩

def sampleTo : List Text := ["send@d1.local".toList]

/-- The step of that number fails. -/
def failsAt (step : Option Nat) : Run := ⟨fun i => step == some i, fun i => Nat.toDigits 10 i, fun _ => []⟩

/-- A try whose first write fails, and then one that is accepted. -/
theorem second_try_delivers_once :
    (processEmail sampleServer (failsAt none) ['a'] sampleTo sampleMail
      (tries sampleServer ['a'] sampleTo sampleMail [failsAt (some 0)] ⟨[], [], [], 0⟩).1).1.documents.map (·.new) =
        [⟨['a'], "pdf".toList, [0x25]⟩] := by
  refine (((refusals_leave_nothing_iff sampleServer ['a'] sampleTo sampleMail).2 [failsAt (some 0)] (failsAt none)
    ⟨[], [], [], 0⟩ (by decide) (by decide)).mpr fun run hrun => ?_).trans (by decide)
  have hempty : reached (failsAt (some 0)) 0 (steps sampleServer sampleTo sampleMail) = [] := by decide
  rw [List.mem_singleton.mp hrun, FailsBeforeCommits, hempty]
  exact .inr fun d hd => nomatch hd

/-- The row of the attachment is not written, after its document was committed. -/
theorem failed_row_leaves_document :
    ¬ ∀ s sender recipients mail run, LeavesNothing s sender recipients mail run := by
  intro h
  have hnothing := h sampleServer ['a'] sampleTo sampleMail (failsAt (some 2)) ⟨[], [], [], 0⟩ (by decide)
  exact absurd hnothing (by decide)

end EmailRetries
