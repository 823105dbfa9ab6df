import RemarkableServer.Lib.Transition
import RemarkableServer.Store

/-!
# The projection of index blobs under concurrent writes

Writes, deletes and parses of index blobs by any number of callers, each in the
steps in which it takes effect, with crashes between any two of them. A write
invalidates an earlier parse only in its last step, and a parse is recorded after
its bytes were read, so the projection is faithful along the runs in which every
record is of the stored bytes and no crash loses a pending invalidation.
-/
namespace Projection

open RustText SyncIndex Store Transition

/-- The lines of an index that no later line of the same name replaces. -/
def lastOfName : List IndexEntry → List IndexEntry
  | [] => []
  | e :: es => if es.any fun k => k.name = e.name then lastOfName es else e :: lastOfName es

theorem any_name_iff {es : List IndexEntry} {name : Text} :
    (es.any fun k => k.name = name) = true ↔ name ∈ es.map IndexEntry.name := by
  simp

theorem lastOfName_of_nodup {es : List IndexEntry} (h : (es.map IndexEntry.name).Nodup) :
    lastOfName es = es := by
  induction es with
  | nil => rfl
  | cons a es ih =>
    obtain ⟨ha, hes⟩ := List.nodup_cons.mp h
    rw [lastOfName, if_neg (mt any_name_iff.mp ha), ih hes]

/-- Replacing row by row leaves the lines that no later line of their name replaces. -/
theorem foldl_insertOrReplace (es acc : List IndexEntry) :
    es.foldl State.insertOrReplace acc =
      acc.filter (fun r => r.name ∉ es.map IndexEntry.name) ++ lastOfName es := by
  induction es generalizing acc with
  | nil => simp [lastOfName]
  | cons e es ih =>
    have hfilter : (acc.filter fun r => r.name ≠ e.name).filter (fun r => r.name ∉ es.map IndexEntry.name) =
        acc.filter fun r => r.name ∉ (e :: es).map IndexEntry.name := by
      rw [List.filter_filter]
      refine List.filter_congr fun r _ => ?_
      simp only [List.map_cons, List.mem_cons]
      grind
    rw [List.foldl_cons, ih, State.insertOrReplace, List.filter_append, hfilter, lastOfName, List.append_assoc]
    split
    next hmem => rw [List.filter_singleton]; simp [any_name_iff.mp hmem]
    next hmem => rw [List.filter_singleton]; simp [mt any_name_iff.mpr hmem]

theorem projected_eq (es : List IndexEntry) : es.foldl State.insertOrReplace [] = lastOfName es := by
  rw [foldl_insertOrReplace]
  rfl

/-! ## The system -/

/-- What is left of an operation in progress: of a write after its file landed, of a delete after
its file went, of a parse after the lookup and after the read. -/
inductive Call where
  | catalogue (hash : Text) (size : Nat)
  | forget (hash : Text)
  | dropRow (hash : Text)
  | dropIndex (hash : Text)
  | read (hash : Text)
  | record (hash : Text) (bytes : Bytes)
  deriving DecidableEq, Repr

/-- The hash whose parse a write or delete in progress has yet to invalidate. -/
def Call.invalidates : Call → Option Text
  | .catalogue hash _ | .forget hash | .dropRow hash | .dropIndex hash => some hash
  | .read _ | .record _ _ => none

/-- The store and the operations in progress. -/
structure Sys where
  store : State
  calls : List Call

def Sys.new (files : Table BlobFile) (json : Option SyncRoot) (versions : List Text) : Sys :=
  ⟨.new files json versions, []⟩

inductive Action where
  | put (hash : Text) (data : Bytes) (modified : Int)
  | delete (hash : Text)
  | ensureIndexed (hash : Text)
  | next (call : Call) (now : Int)
  | crash

/-- The next step of an operation in progress, and what is left of it. -/
def advance (s : State) (now : Int) : Call → State × Option Call
  | .catalogue hash size => (s.catalogue hash size now, some (.forget hash))
  | .forget hash => (s.forgetIndex hash, none)
  | .dropRow hash => (s.dropRow hash, some (.dropIndex hash))
  | .dropIndex hash => (s.forgetIndex hash, none)
  | .read hash =>
    match s.files.lookup hash with
    | some file => (s, some (.record hash file.bytes))
    | none => (s, none)
  | .record hash bytes => ((s.recordIndex hash (parseIndex bytes)).1, none)

def step (s : Sys) : Action → Option Sys
  | .put hash data modified =>
    if isValidHash hash then some ⟨s.store.writeFile hash data modified, .catalogue hash data.length :: s.calls⟩
    else none
  | .delete hash =>
    if isValidHash hash then some ⟨s.store.removeFile hash, .dropRow hash :: s.calls⟩ else none
  | .ensureIndexed hash =>
    if isValidHash hash ∧ s.store.indexSeen hash = none then some ⟨s.store, .read hash :: s.calls⟩ else none
  | .next call now =>
    if call ∈ s.calls then
      let (store, rest) := advance s.store now call
      some ⟨store, rest.toList ++ s.calls.erase call⟩
    else none
  | .crash =>
    match s.store.reopen with
    | .ok store => some ⟨store, []⟩
    | .error _ => none

/-- A write or delete of `hash` has changed its file and not yet invalidated its parse. -/
def Sys.inProgress (s : Sys) (hash : Text) : Bool := s.calls.any fun c => c.invalidates = some hash

/-- The parse recorded for `hash`, if any, is of the stored bytes, and these meet `p`. -/
def faithful (p : Bytes → Bool) (s : State) (hash : Text) : Bool :=
  match s.indexes.lookup hash with
  | none => true
  | some row =>
    !row.ok ||
      match s.files.lookup hash with
      | none => false
      | some file =>
        p file.bytes &&
          match parseIndex file.bytes with
          | .ok (_, es) => row.entries = lastOfName es
          | .error _ => false

/-- Steps that cannot leave a wrong parse behind: what is recorded was read from the bytes now
stored (or will be invalidated), and a crash interrupts no write or delete of a blob whose
recorded parse is not of its bytes any more. -/
def good (p : Bytes → Bool) (s : Sys) : Action → Bool
  | .next (.record hash bytes) _ =>
    match parseIndex bytes with
    | .ok _ => s.inProgress hash || ((s.store.files.lookup hash).map BlobFile.bytes = some bytes && p bytes)
    | .error _ => true
  | .crash => s.calls.all fun c => c.invalidates.all fun hash => faithful p s.store hash
  | _ => true

/-! ## The invariant -/

theorem faithful_iff {p : Bytes → Bool} {s : State} {hash : Text} :
    faithful p s hash = true ↔ ∀ row, s.indexes.lookup hash = some row → row.ok = true →
      ∃ file schema es, s.files.lookup hash = some file ∧ p file.bytes = true ∧
        parseIndex file.bytes = .ok (schema, es) ∧ row.entries = lastOfName es := by
  unfold faithful
  cases s.indexes.lookup hash with
  | none => simp
  | some row =>
    cases s.files.lookup hash with
    | none => simp
    | some file =>
      cases hp : parseIndex file.bytes with
      | error e => simp [hp]
      | ok r =>
        obtain ⟨schema, es⟩ := r
        cases hok : row.ok <;> simp [hp, hok]

theorem faithful_congr {p : Bytes → Bool} {s s' : State} {hash : Text}
    (hi : s'.indexes.lookup hash = s.indexes.lookup hash) (hf : s'.files.lookup hash = s.files.lookup hash) :
    faithful p s' hash = faithful p s hash := by
  rw [faithful, faithful, hi, hf]

theorem faithful_of_no_row {p : Bytes → Bool} {s : State} {hash : Text}
    (h : s.indexes.lookup hash = none) : faithful p s hash = true := by
  rw [faithful, h]

/-- A parse recorded from the stored bytes is faithful; other parses are left alone. -/
theorem faithful_recordIndex {p : Bytes → Bool} {s : State} {hash : Text} {bytes : Bytes}
    (h : ∀ r, parseIndex bytes = .ok r → (s.files.lookup hash).map BlobFile.bytes = some bytes ∧ p bytes = true) :
    faithful p (s.recordIndex hash (parseIndex bytes)).1 hash = true := by
  rw [faithful_iff]
  intro row hrow hok
  cases hp : parseIndex bytes with
  | error e =>
    simp only [hp, State.recordIndex, lookup_insert_ite, if_true, Option.some.injEq] at hrow
    subst hrow
    cases hok
  | ok r =>
    obtain ⟨hbytes, hpb⟩ := h r hp
    obtain ⟨file, hfile, rfl⟩ := Option.map_eq_some_iff.mp hbytes
    simp only [hp, State.recordIndex, lookup_insert_ite, if_true, Option.some.injEq] at hrow
    subst hrow
    exact ⟨file, r.1, r.2, hfile, hpb, hp, projected_eq r.2⟩

theorem recordIndex_files (s : State) (hash : Text) (r : Except IndexError (Text × List IndexEntry)) :
    (s.recordIndex hash r).1.files = s.files := by
  cases r <;> rfl

theorem recordIndex_lookup {s : State} {hash k : Text} (hk : k ≠ hash)
    (r : Except IndexError (Text × List IndexEntry)) :
    (s.recordIndex hash r).1.indexes.lookup k = s.indexes.lookup k := by
  cases r <;> exact AList.lookup_insert_ne hk

theorem inProgress_iff {s : Sys} {hash : Text} :
    s.inProgress hash = true ↔ ∃ c ∈ s.calls, c.invalidates = some hash := by
  simp [Sys.inProgress]

/-- Every recorded parse is faithful or about to be invalidated. -/
def Inv (p : Bytes → Bool) (s : Sys) : Prop :=
  ∀ hash, s.inProgress hash = true ∨ faithful p s.store hash = true

/-- A step that touches one hash has to answer for that hash only. -/
theorem inv_of_local {p : Bytes → Bool} {s s' : Sys} (hash : Text) (h : Inv p s)
    (hcalls : ∀ k, k ≠ hash → s.inProgress k = true → s'.inProgress k = true)
    (hindexes : ∀ k, k ≠ hash → s'.store.indexes.lookup k = s.store.indexes.lookup k)
    (hfiles : ∀ k, k ≠ hash → s'.store.files.lookup k = s.store.files.lookup k)
    (hat : s'.inProgress hash = true ∨ faithful p s'.store hash = true) : Inv p s' := by
  intro k
  by_cases hk : k = hash
  · subst hk
    exact hat
  · rcases h k with hp | hf
    · exact .inl (hcalls k hk hp)
    · exact .inr ((faithful_congr (hindexes k hk) (hfiles k hk)).trans hf)

theorem inProgress_cons {s : Sys} {store : State} {c : Call} {k : Text} (h : s.inProgress k = true) :
    Sys.inProgress ⟨store, c :: s.calls⟩ k = true := by
  obtain ⟨c', hc', hk⟩ := inProgress_iff.mp h
  exact inProgress_iff.mpr ⟨c', List.mem_cons_of_mem c hc', hk⟩

theorem inProgress_erase {s : Sys} {store : State} {c : Call} {rest : List Call} {k : Text}
    (hne : c.invalidates ≠ some k) (h : s.inProgress k = true) :
    Sys.inProgress ⟨store, rest ++ s.calls.erase c⟩ k = true := by
  obtain ⟨c', hc', hk⟩ := inProgress_iff.mp h
  have hcc : c' ≠ c := fun e => hne (e ▸ hk)
  exact inProgress_iff.mpr ⟨c', List.mem_append_right rest ((List.mem_erase_of_ne hcc).mpr hc'), hk⟩

theorem reopen_eq_ok {s s' : State} (h : s.reopen = .ok s') : s'.files = s.files ∧ s'.indexes = s.indexes := by
  obtain ⟨row, -, rfl⟩ := map_eq_ok.mp h
  exact ⟨rfl, rfl⟩

theorem inv_next {p : Bytes → Bool} {s : Sys} {c : Call} {now : Int} (h : Inv p s)
    (hgood : good p s (.next c now) = true) :
    Inv p ⟨(advance s.store now c).1, (advance s.store now c).2.toList ++ s.calls.erase c⟩ := by
  have other : ∀ {hash : Text}, c.invalidates = some hash → ∀ {store : State} {rest : List Call} (k : Text),
      k ≠ hash → s.inProgress k = true → Sys.inProgress ⟨store, rest ++ s.calls.erase c⟩ k = true := by
    intro hash hc store rest k hk
    exact inProgress_erase (by rw [hc]; exact fun e => hk (Option.some.inj e).symm)
  cases c with
  | catalogue hash size =>
    exact inv_of_local hash h (other rfl) (fun _ _ => rfl) (fun _ _ => rfl) (.inl (by simp [Sys.inProgress, advance, Call.invalidates]))
  | dropRow hash =>
    exact inv_of_local hash h (other rfl) (fun _ _ => rfl) (fun _ _ => rfl) (.inl (by simp [Sys.inProgress, advance, Call.invalidates]))
  | forget hash | dropIndex hash =>
    exact inv_of_local hash h (other rfl) (fun k hk => AList.lookup_erase_ne hk) (fun _ _ => rfl)
      (.inr (faithful_of_no_row (AList.lookup_erase _ _)))
  | read hash =>
    have hstore : (advance s.store now (.read hash)).1 = s.store := by
      simp only [advance]
      split <;> rfl
    intro k
    rw [hstore]
    exact (h k).imp (inProgress_erase (by simp [Call.invalidates])) id
  | record hash bytes =>
    have progress : ∀ {store : State} {rest : List Call} (k : Text), s.inProgress k = true →
        Sys.inProgress ⟨store, rest ++ s.calls.erase (.record hash bytes)⟩ k = true :=
      fun k => inProgress_erase (by simp [Call.invalidates])
    refine inv_of_local hash h (fun k _ => progress k) (fun k hk => recordIndex_lookup hk _)
      (fun k _ => by rw [advance, recordIndex_files]) ?_
    simp only [good] at hgood
    split at hgood
    next r hr =>
      rcases Bool.or_eq_true_iff.mp hgood with hp | hfresh
      · exact .inl (progress hash hp)
      · rw [Bool.and_eq_true, decide_eq_true_iff] at hfresh
        exact .inr (faithful_recordIndex fun _ _ => hfresh)
    next e he => exact .inr (faithful_recordIndex fun r hr => by rw [he] at hr; cases hr)

theorem inv_step (p : Bytes → Bool) (s : Sys) (a : Action) (s' : Sys) (h : Inv p s)
    (hgood : good p s a = true) (hstep : step s a = some s') : Inv p s' := by
  cases a with
  | put hash data modified =>
    simp only [step] at hstep
    split_ifs at hstep
    cases hstep
    exact inv_of_local hash h (fun k _ => inProgress_cons) (fun _ _ => rfl) (fun k hk => AList.lookup_insert_ne hk)
      (.inl (by simp [Sys.inProgress, Call.invalidates]))
  | delete hash =>
    simp only [step] at hstep
    split_ifs at hstep
    cases hstep
    exact inv_of_local hash h (fun k _ => inProgress_cons) (fun _ _ => rfl) (fun k hk => AList.lookup_erase_ne hk)
      (.inl (by simp [Sys.inProgress, Call.invalidates]))
  | ensureIndexed hash =>
    simp only [step] at hstep
    split_ifs at hstep
    cases hstep
    exact fun k => (h k).imp inProgress_cons id
  | next c now =>
    simp only [step] at hstep
    split_ifs at hstep
    cases hstep
    exact inv_next h hgood
  | crash =>
    simp only [step] at hstep
    split at hstep
    next store hopen =>
      cases hstep
      obtain ⟨hfiles, hindexes⟩ := reopen_eq_ok hopen
      intro k
      refine .inr ((faithful_congr (s := s.store) (by rw [hindexes]) (by rw [hfiles])).trans ?_)
      rcases h k with hp | hf
      · obtain ⟨c, hc, hk⟩ := inProgress_iff.mp hp
        have := List.all_eq_true.mp hgood c hc
        rwa [hk] at this
      · exact hf
    next => cases hstep

theorem inv_new (p : Bytes → Bool) (files : Table BlobFile) (json : Option SyncRoot) (versions : List Text) :
    Inv p (.new files json versions) :=
  fun _ => .inr (faithful_of_no_row rfl)

theorem inv_run {p : Bytes → Bool} {s s' : Sys} {as : List Action} (h : Inv p s)
    (hgood : AllGood step (fun s a => good p s a = true) s as) (hrun : run step s as = some s') : Inv p s' :=
  invariant_of_allGood (inv_step p) h hgood hrun

theorem indexEntries_eq_some {s : State} {hash : Text} {es : List IndexEntry} (h : s.indexEntries hash = some es) :
    ∃ row, s.indexes.lookup hash = some row ∧ row.ok = true ∧ es.Perm row.entries := by
  unfold State.indexEntries at h
  split at h
  next row hrow =>
    split_ifs at h with hok
    cases h
    exact ⟨row, hrow, hok, List.perm_insertionSort _ _⟩
  next => cases h

/-- The strict reader accepts the bytes with no name listed twice, or refuses them. -/
def distinctNames (bytes : Bytes) : Bool :=
  match parseIndex bytes with
  | .ok (_, es) => (es.map IndexEntry.name).Nodup
  | .error _ => true

/-- Along every run of good steps, whatever the projection holds for a blob with no write or delete
in progress is what the strict reader makes of its stored bytes, up to order. -/
theorem projection_agrees (files : Table BlobFile) (json : Option SyncRoot) (versions : List Text)
    (as : List Action) (s : Sys) (hash : Text) (es : List IndexEntry)
    (hgood : AllGood step (fun s a => good distinctNames s a = true) (.new files json versions) as)
    (hrun : run step (.new files json versions) as = some s)
    (hidle : s.inProgress hash = false) (hes : s.store.indexEntries hash = some es) :
    ∃ file schema parsed, s.store.files.lookup hash = some file ∧
      parseIndex file.bytes = .ok (schema, parsed) ∧ es.Perm parsed := by
  have hinv := inv_run (inv_new distinctNames files json versions) hgood hrun hash
  rw [hidle] at hinv
  obtain ⟨row, hrow, hok, hperm⟩ := indexEntries_eq_some hes
  obtain ⟨file, schema, parsed, hfile, hnames, hparse, hentries⟩ :=
    faithful_iff.mp (hinv.resolve_left Bool.false_ne_true) row hrow hok
  have hnodup : (parsed.map IndexEntry.name).Nodup := by simpa [distinctNames, hparse] using hnames
  rw [hentries, lastOfName_of_nodup hnodup] at hperm
  exact ⟨file, schema, parsed, hfile, hparse, hperm⟩

/-! ## Concrete runs -/

/-- A hash of one repeated digit. -/
def hashOf (c : Char) : Text := List.replicate 64 c

/-- A schema 3 index of leaf files, given by hash and name. -/
def leafIndex (leaves : List (Text × Text)) : Bytes :=
  Utf8Codec.encode (schema3 ++ ['\n'] ++ leaves.flatMap fun (hash, name) =>
    hash ++ [':', '0', ':'] ++ name ++ [':', '0', ':', '1', '\n'])

/-- Store an index and parse it. -/
def putAndIndex (hash : Text) (data : Bytes) : List Action :=
  [.put hash data 0, .next (.catalogue hash data.length) 0, .next (.forget hash) 0,
    .ensureIndexed hash, .next (.read hash) 0, .next (.record hash data) 0]

def twoNames : List Action :=
  putAndIndex (hashOf 'a') (leafIndex [(hashOf 'b', ['x']), (hashOf 'c', ['y'])])

theorem projection_agrees_two_names : ∃ s file schema parsed, run step (.new ∅ none []) twoNames = some s ∧
    s.store.files.lookup (hashOf 'a') = some file ∧ parseIndex file.bytes = .ok (schema, parsed) ∧
      ((s.store.indexEntries (hashOf 'a')).getD []).Perm parsed := by
  obtain ⟨s, hs⟩ := Option.isSome_iff_exists.mp
    (show (run step (.new ∅ none []) twoNames).isSome = true by decide +kernel)
  have hidle : ((run step (.new ∅ none []) twoNames).map fun s => s.inProgress (hashOf 'a')) = some false := by
    decide +kernel
  have hes : ((run step (.new ∅ none []) twoNames).map fun s => (s.store.indexEntries (hashOf 'a')).isSome) =
      some true := by
    decide +kernel
  rw [hs] at hidle hes
  obtain ⟨es, he⟩ := Option.isSome_iff_exists.mp (Option.some.inj hes)
  obtain ⟨file, schema, parsed, h⟩ := projection_agrees ∅ none [] twoNames s (hashOf 'a') es (by decide +kernel) hs
    (Option.some.inj hidle) he
  exact ⟨s, file, schema, parsed, hs, by rw [he]; exact h⟩

/-- Two lines of one name: the parse lists both, the projection only the second. -/
def repeatedName : List Action :=
  putAndIndex (hashOf 'a') (leafIndex [(hashOf 'b', ['x']), (hashOf 'c', ['x'])])

theorem repeated_name_loses_an_entry : ∃ s es, run step (.new ∅ none []) repeatedName = some s ∧
    s.inProgress (hashOf 'a') = false ∧ s.store.indexEntries (hashOf 'a') = some es ∧
      ¬ ∃ file schema parsed, s.store.files.lookup (hashOf 'a') = some file ∧
        parseIndex file.bytes = .ok (schema, parsed) ∧ es.Perm parsed := by
  obtain ⟨s, hs⟩ := Option.isSome_iff_exists.mp
    (show (run step (.new ∅ none []) repeatedName).isSome = true by decide +kernel)
  have hidle : ((run step (.new ∅ none []) repeatedName).map fun s => s.inProgress (hashOf 'a')) = some false := by
    decide +kernel
  have hes : ((run step (.new ∅ none []) repeatedName).map fun s =>
      (s.store.indexEntries (hashOf 'a')).map List.length) = some (some 1) := by
    decide +kernel
  have hparsed : ((run step (.new ∅ none []) repeatedName).map fun s =>
      (s.store.files.lookup (hashOf 'a')).map fun f => (parseIndex f.bytes).toOption.map fun r => r.2.length) =
        some (some (some 2)) := by
    decide +kernel
  rw [hs] at hidle hes hparsed
  obtain ⟨es, he, hlen⟩ := Option.map_eq_some_iff.mp (Option.some.inj hes)
  refine ⟨s, es, hs, Option.some.inj hidle, he, ?_⟩
  rintro ⟨file, schema, parsed, hfile, hparse, hperm⟩
  have := Option.some.inj hparsed
  simp [hfile, hparse, Except.toOption, ← hperm.length_eq, hlen] at this

end Projection
