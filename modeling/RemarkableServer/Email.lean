import RemarkableServer.Lib.RustText

/-!
# Mail to devices

`email.rs` after the session: the addresses of devices, the attachments of a parsed message,
and what `process_email` writes for it. Which of its writes fail is a parameter, as are the
case mappings of Unicode. The confirmation to the sender, which may fail without effect, is
left out.
-/
namespace Email

open RustText

/-! ## Addresses -/

/-- The configured domain, the registered device ids in the order of their table, and the case mappings of `str`. -/
structure Server where
  domain : Text
  devices : List Text
  toLowercase : Text → Text
  toUppercase : Text → Text

/-- `WHERE device_id = ? COLLATE NOCASE`, for ids without U+0000, at which the comparison would end. -/
def Server.getDevice (s : Server) (deviceId : Text) : Option Text :=
  s.devices.find? fun d => eqIgnoreAsciiCase d deviceId

def Server.expectedSuffix (s : Server) : Text := '.' :: s.domain

/-- What comes before the suffix. -/
def stripSuffix (suffix t : Text) : Option Text :=
  if suffix <:+ t then some (t.take (t.length - suffix.length)) else none

/-- The device that `validate_recipient` finds. -/
def Server.lookUp (s : Server) (address : Text) : Option Text :=
  match split '@' address with
  | [localPart, domain] =>
    let localPart := s.toLowercase localPart
    if localPart != "send".toList && localPart != "sync".toList then none
    else (stripSuffix s.expectedSuffix (s.toLowercase domain)).bind s.getDevice
  | _ => none

def Server.validateRecipient (s : Server) (address : Text) : Bool := (s.lookUp address).isSome

def Server.extractDeviceId (s : Server) (address : Text) : Option Text :=
  match split '@' address with
  | [_, domain] => (stripSuffix s.expectedSuffix (s.toLowercase domain)).map s.toUppercase
  | _ => none

/-! ## Attachments -/

/-- The last component of a path. -/
def fileName (path : Text) : Option Text :=
  ((split '/' path).filter fun c => c != [] && c != ['.']).getLast?.filter (· != ['.', '.'])

/-- The stem and the extension of a file name; a dot at its start does not count. -/
def splitAtDot (name : Text) : Text × Option Text :=
  match rsplitOnce '.' name with
  | some (stem, ext) => if stem.isEmpty then (name, none) else (stem, some ext)
  | none => (name, none)

def extension (path : Text) : Option Text := (fileName path).bind fun name => (splitAtDot name).2

def stripExtension (path : Text) : Text := ((fileName path).map fun name => (splitAtDot name).1).getD path

def supportedExtensions : List Text := ["pdf".toList, "epub".toList]

/-- A part of a message, with its body if that can be decoded. -/
structure ParsedMail where
  headers : List (Text × Text)
  mimetype : Text
  dispositionFilename : Option Text
  typeName : Option Text
  body : Option Bytes
  subparts : List ParsedMail

structure Attachment where
  filename : Text
  contentType : Text
  data : Bytes
  deriving DecidableEq

/-- The attachment that a part itself is, if any. -/
def ownAttachment (s : Server) (mimetype : Text) (filename : Option Text) (body : Option Bytes) : Option (List Attachment) :=
  match filename with
  | none => some []
  | some name =>
    if s.toLowercase ((extension name).getD []) ∈ supportedExtensions then
      body.map fun data => [⟨name, s.toLowercase mimetype, data⟩]
    else some []

mutual

/-- The attachments of a part and of those in it, if all can be decoded. -/
def extractAttachments (s : Server) : ParsedMail → Option (List Attachment)
  | ⟨_, mimetype, dispositionFilename, typeName, body, subparts⟩ =>
    (ownAttachment s mimetype (dispositionFilename.or typeName) body).bind fun own =>
      (extractSubparts s subparts).map (own ++ ·)

def extractSubparts (s : Server) : List ParsedMail → Option (List Attachment)
  | [] => some []
  | part :: subparts =>
    (extractAttachments s part).bind fun here => (extractSubparts s subparts).map (here ++ ·)

end

def subject (mail : ParsedMail) : Text :=
  ((mail.headers.find? fun h => eqIgnoreAsciiCase h.1 "subject".toList).map (·.2)).getD "No Subject".toList

/-- The type of the document that an attachment becomes. -/
def documentExt (filename contentType : Text) : Option Text :=
  let lower := filename.map Char.toLower
  if ".pdf".toList <:+ lower || eqIgnoreAsciiCase contentType "application/pdf".toList then some "pdf".toList
  else if ".epub".toList <:+ lower || eqIgnoreAsciiCase contentType "application/epub+zip".toList then some "epub".toList
  else none

/-! ## Processing -/

structure EmailRow where
  id : Text
  fromAddr : Text
  toAddr : Text
  subject : Text
  deviceId : Text
  receivedAt : Text
  status : Text
  deriving DecidableEq

structure AttachmentRow where
  id : Text
  emailId : Text
  filename : Text
  contentType : Text
  size : Nat
  hash : Text
  deriving DecidableEq

structure NewDocument where
  name : Text
  ext : Text
  data : Bytes
  deriving DecidableEq

structure Document where
  id : Text
  new : NewDocument
  deriving DecidableEq

/-- The tables, the documents of the sync tree, and how many steps the processing of the message has taken. -/
structure World where
  emails : List EmailRow
  attachments : List AttachmentRow
  documents : List Document
  steps : Nat

/-- Which steps fail, and the id that a step draws and its time. -/
structure Run where
  fails : Nat → Bool
  uuid : Nat → Text
  now : Nat → Text

/-- A step that may fail, and then has no effect. -/
def Run.attempt (run : Run) (effect : World → World) (w : World) : World × Bool :=
  if run.fails w.steps then ({ w with steps := w.steps + 1 }, false)
  else ({ effect w with steps := w.steps + 1 }, true)

/-- `documents::create_document`: the document is committed to the tree, or is not. -/
def createDocument (run : Run) (d : NewDocument) (w : World) : World × Bool :=
  run.attempt (fun w => { w with documents := w.documents ++ [⟨run.uuid w.steps, d⟩] }) w

def insertAttachment (run : Run) (emailId docId : Text) (a : Attachment) (w : World) : World × Bool :=
  run.attempt (fun w => { w with
    attachments := w.attachments ++ [⟨run.uuid w.steps, emailId, a.filename, a.contentType, a.data.length, docId⟩] }) w

def insertEmail (run : Run) (sender recipient subject deviceId : Text) (w : World) : World × Bool :=
  run.attempt (fun w => { w with
    emails := w.emails ++
      [⟨run.uuid w.steps, sender, recipient, subject, deviceId, run.now w.steps, "processing".toList⟩] }) w

def updateStatus (run : Run) (emailId status : Text) (w : World) : World × Bool :=
  run.attempt (fun w => { w with
    emails := w.emails.map fun r => if r.id = emailId then { r with status := status } else r }) w

/-- How many attachments became documents, after so many before; nothing when a step failed. -/
def syncAttachments (run : Run) (emailId : Text) : List Attachment → Nat → World → World × Option Nat
  | [], synced, w => (w, some synced)
  | a :: attachments, synced, w =>
    match documentExt a.filename a.contentType with
    | none => syncAttachments run emailId attachments synced w
    | some ext =>
      match createDocument run ⟨stripExtension a.filename, ext, a.data⟩ w with
      | (w', false) => (w', none)
      | (w', true) =>
        match insertAttachment run emailId (run.uuid w.steps) a w' with
        | (w', false) => (w', none)
        | (w', true) => syncAttachments run emailId attachments (synced + 1) w'

/-- The loop over the recipients, after so many attachments. -/
def processRecipients (s : Server) (run : Run) (sender : Text) (mail : ParsedMail) :
    List Text → Nat → World → World × Option Nat
  | [], total, w => (w, some total)
  | recipient :: recipients, total, w =>
    match s.extractDeviceId recipient with
    | none => processRecipients s run sender mail recipients total w
    | some deviceId =>
      let emailId := run.uuid w.steps
      match insertEmail run sender recipient (subject mail) deviceId w with
      | (w, false) => (w, none)
      | (w, true) =>
        match extractAttachments s mail with
        | none => (w, none)
        | some attachments =>
          match syncAttachments run emailId attachments 0 w with
          | (w, none) => (w, none)
          | (w, some synced) =>
            match updateStatus run emailId (if 0 < synced then "synced".toList else "no_attachments".toList) w with
            | (w, false) => (w, none)
            | (w, true) => processRecipients s run sender mail recipients (total + synced) w

/-- `process_email` of a parsed message. -/
def processEmail (s : Server) (run : Run) (sender : Text) (recipients : List Text) (mail : ParsedMail) (w : World) :
    World × Option Nat :=
  processRecipients s run sender mail recipients 0 { w with steps := 0 }

end Email
