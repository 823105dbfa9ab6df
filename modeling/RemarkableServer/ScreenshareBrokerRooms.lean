import RemarkableServer.ScreenshareBroker

/-!
# The rooms of the broker

Looking for the active room, making one, joining one and leaving are steps of their
own, and the sessions of many clients take them in any order. Beside the broker stands
a record of who was added to a room by whose signal, and of what a signal that is
answered has seen of the rooms since it came.
-/
namespace ScreenshareBrokerRooms

open RustText Tables ScreenshareBroker Transition

/-! ## The record -/

/-- A signal of the user's client has added its sender to a room, or was answered; the newest are the first. -/
inductive Event where
  | added (userId sender roomId : Text)
  | answered (sender roomId : Text) (seen : List (Text × Text))
  deriving DecidableEq

/-- Rooms with their participants. -/
def members (rooms : Rooms) : List (Text × Text) := rooms.entries.flatMap fun e => e.2.participants.map fun p => (e.1, p)

/-- `seen` are the participants that the rooms had at some moment since the session read its packet. -/
structure Watched where
  sys : Sys
  seen : Nat → List (Text × Text)
  log : List Event

def Watched.empty : Watched := ⟨.empty, fun _ => [], []⟩

def opEvents (rooms : Rooms) (userId : Text) (seen : List (Text × Text)) (fresh : Text) : Op → List Event
  | .insert _ sender _ _ => [.added userId sender fresh]
  | .createJoin _ sender _ roomId _ | .join _ sender roomId _ =>
    if (rooms.lookup roomId).isSome then [.added userId sender roomId] else []
  | .roomCreated _ sender _ roomId _ | .roomJoined _ sender roomId _ => [.answered sender roomId seen]
  | _ => []

def Watched.events (w : Watched) : Action → List Event
  | .client userId session (.run _ _ fresh) =>
    ((nextOp w.sys session).map (opEvents w.sys.rooms userId (w.seen session) fresh)).getD []
  | _ => []

def Action.reads (session : Nat) : Action → Bool
  | .client _ n (.receive _) => n == session
  | _ => false

def Watched.after (w : Watched) (a : Action) (s : Sys) : Watched where
  sys := s
  seen := fun session => members s.rooms ++ if Action.reads session a then [] else w.seen session
  log := w.events a ++ w.log

def watch (env : Env) (w : Watched) (a : Action) : Option Watched := (step env w.sys a).map (w.after a)

/-- Each user has one room at most, rooms have participants, who were added by signals of the user of the room, and
a signal that was answered saw its sender in the room. -/
structure Consistent (w : Watched) : Prop where
  one : ∀ id id' r r', w.sys.rooms.lookup id = some r → w.sys.rooms.lookup id' = some r' → r.userId = r'.userId → id = id'
  nonempty : ∀ id r, w.sys.rooms.lookup id = some r → r.participants ≠ []
  added : ∀ id r, w.sys.rooms.lookup id = some r → ∀ p ∈ r.participants, .added r.userId p id ∈ w.log
  answered : ∀ sender roomId seen, .answered sender roomId seen ∈ w.log → (roomId, sender) ∈ seen

/-! ## The good steps -/

def goodOp (rooms : Rooms) (userId : Text) : Op → Bool
  | .insert owner _ _ _ => owner == userId && !rooms.entries.any (·.2.userId == owner)
  | .createJoin _ _ _ existing _ => (rooms.lookup existing).any (·.userId == userId)
  | .join _ _ roomId _ => (rooms.lookup roomId).all (·.userId == userId)
  | _ => true

/-- A room is made for the client's own user, who has none; a room that was found is still there; and a room that is
joined is one of the client's own user. -/
def good (w : Watched) : Action → Bool
  | .client userId session (.run _ _ _) => (nextOp w.sys session).all (goodOp w.sys.rooms userId)
  | _ => true

/-! ## Rooms -/

structure RoomsOk (log : List Event) (rooms : Rooms) : Prop where
  one : ∀ id id' r r', rooms.lookup id = some r → rooms.lookup id' = some r' → r.userId = r'.userId → id = id'
  nonempty : ∀ id r, rooms.lookup id = some r → r.participants ≠ []
  added : ∀ id r, rooms.lookup id = some r → ∀ p ∈ r.participants, .added r.userId p id ∈ log

section

variable {log log' : List Event} {rooms rooms' : Rooms}

/-- Whoever was added was added by a signal of the room's user. -/
theorem RoomsOk.change {added : Text → Text → Prop} (h : RoomsOk log rooms) (hrooms : ComesFrom added rooms rooms')
    (hlog : log ⊆ log') (hadded : ∀ id r p, rooms.lookup id = some r → added id p → .added r.userId p id ∈ log') :
    RoomsOk log' rooms' := by
  constructor
  · intro id id' r r' hr hr' huser
    obtain ⟨r₀, hr₀, hu, -⟩ := hrooms id r hr
    obtain ⟨r₀', hr₀', hu', -⟩ := hrooms id' r' hr'
    exact h.one id id' r₀ r₀' hr₀ hr₀' (hu.symm.trans (huser.trans hu'))
  · intro id r hr
    obtain ⟨r₀, hr₀, -, hne, -⟩ := hrooms id r hr
    exact hne (h.nonempty id r₀ hr₀)
  · intro id r hr p hp
    obtain ⟨r₀, hr₀, hu, -, hcases⟩ := hrooms id r hr
    rw [hu]
    rcases hcases p hp with hold | hnew
    · exact hlog (h.added id r₀ hr₀ p hold)
    · exact hadded id r₀ p hr₀ hnew

theorem RoomsOk.mono (h : RoomsOk log rooms) (hlog : log ⊆ log') : RoomsOk log' rooms :=
  @RoomsOk.change _ _ _ _ (fun _ _ => False) h (fun _ r hr => ⟨r, hr, rfl, fun hne => hne, fun _ hp => .inl hp⟩) hlog
    fun _ _ _ _ hnone => hnone.elim

/-- A sender joins a room of the user whose client's signal it is. -/
theorem RoomsOk.join (h : RoomsOk log rooms) {roomId userId sender : Text} {r : Room} (hr : rooms.lookup roomId = some r)
    (huser : r.userId = userId) (now : Nat) :
    RoomsOk (.added userId sender roomId :: log) (rooms.modify roomId (Room.join now sender)) := by
  refine h.change (comesFrom_join rooms roomId sender now) (fun _ he => List.mem_cons_of_mem _ he) ?_
  rintro id r' p hr' ⟨rfl, rfl⟩
  rw [hr, Option.some.injEq] at hr'
  subst hr'
  exact huser ▸ List.mem_cons_self

theorem RoomsOk.insert (h : RoomsOk log rooms) {roomId userId sender : Text} {now : Nat}
    (hnone : ∀ id r, rooms.lookup id = some r → r.userId ≠ userId) :
    RoomsOk (.added userId sender roomId :: log) (rooms.insert roomId ⟨userId, [sender], now, now⟩) := by
  constructor
  · intro id id' r r' hr hr' huser
    rw [lookup_insert] at hr hr'
    split at hr
    · next hid =>
      split at hr'
      · next hid' => exact hid.trans hid'.symm
      · obtain rfl := Option.some.inj hr
        exact absurd huser.symm (hnone id' r' hr')
    · split at hr'
      · obtain rfl := Option.some.inj hr'
        exact absurd huser (hnone id r hr)
      · exact h.one id id' r r' hr hr' huser
  · intro id r hr
    rw [lookup_insert] at hr
    split at hr
    · obtain rfl := Option.some.inj hr
      exact List.cons_ne_nil _ _
    · exact h.nonempty id r hr
  · intro id r hr p hp
    rw [lookup_insert] at hr
    split at hr
    · next hid =>
      obtain rfl := Option.some.inj hr
      obtain rfl := List.mem_singleton.mp hp
      exact hid ▸ List.mem_cons_self
    · exact List.mem_cons_of_mem _ (h.added id r hr p hp)

theorem mem_members {roomId p : Text} : (roomId, p) ∈ members rooms ↔ ∃ r, rooms.lookup roomId = some r ∧ p ∈ r.participants := by
  rw [members, List.mem_flatMap]
  constructor
  · rintro ⟨⟨id, r⟩, he, hp⟩
    obtain ⟨p, hp, heq⟩ := List.mem_map.mp hp
    cases heq
    exact ⟨r, mem_entries_iff.mp he, hp⟩
  · rintro ⟨r, hr, hp⟩
    exact ⟨⟨roomId, r⟩, mem_entries_iff.mpr hr, List.mem_map.mpr ⟨p, hp, rfl⟩⟩

/-- Who has joined is a participant. -/
theorem mem_members_join {roomId sender : Text} {r : Room} (hr : rooms.lookup roomId = some r) (now : Nat) :
    (roomId, sender) ∈ members (rooms.modify roomId (Room.join now sender)) := by
  refine mem_members.mpr ⟨r.join now sender, ?_, mem_join.mpr (.inr rfl)⟩
  rw [lookup_modify, if_pos rfl, hr, Option.map_some]

end

/-! ## Answers -/

/-- The sender that a reply tells of its room. -/
def answers : Op → Option (Text × Text)
  | .roomCreated _ sender _ roomId _ | .roomJoined _ sender roomId _ => some (roomId, sender)
  | _ => none

/-- A session that is to answer has seen its sender in the room. -/
def Answering (conns : Table Nat Conn) (seen : Nat → List (Text × Text)) : Prop :=
  ∀ n c, conns.lookup n = some c → ∀ op ∈ c.ops, ∀ m ∈ answers op, m ∈ seen n

section

variable {conns : Table Nat Conn} {seen seen' : Nat → List (Text × Text)}

theorem Answering.insert (h : Answering conns seen) {session : Nat} {c : Conn} (hseen : ∀ n ≠ session, seen n ⊆ seen' n)
    (hops : ∀ op ∈ c.ops, ∀ m ∈ answers op, m ∈ seen' session) : Answering (conns.insert session c) seen' := by
  intro n c' hc' op hop m hm
  rw [lookup_insert] at hc'
  split at hc'
  · next hn =>
    subst hn
    obtain rfl := Option.some.inj hc'
    exact hops op hop m hm
  · next hn => exact hseen n hn (h n c' hc' op hop m hm)

theorem Answering.erase (h : Answering conns seen) (session : Nat) : Answering (conns.erase session) seen := by
  intro n c hc
  rw [lookup_erase] at hc
  split at hc
  · cases hc
  · exact h n c hc

theorem Answering.mono (h : Answering conns seen) (hseen : ∀ n, seen n ⊆ seen' n) : Answering conns seen' :=
  fun n c hc op hop m hm => hseen n (h n c hc op hop m hm)

end

/-- A lookup is followed by a section that asks for no answer yet. -/
theorem answers_found (userId : Text) (found : Option Text) (next : Lookup) :
    ∀ op ∈ next.found userId found, answers op = none := by
  intro op hop
  cases next with
  | touch =>
    cases found with
    | none => cases hop
    | some roomId =>
      obtain rfl := List.mem_singleton.mp hop
      rfl
  | create sender room qos =>
    cases found <;>
    · obtain rfl := List.mem_singleton.mp hop
      rfl
  | join sender qos =>
    obtain rfl := List.mem_singleton.mp hop
    rw [joinRoom]
    split <;> rfl
  | broadcast sender body qos =>
    obtain rfl := List.mem_singleton.mp hop
    rfl
  | direct target body qos =>
    obtain rfl := List.mem_singleton.mp hop
    rfl

/-- No packet asks for an answer before its signal was handled. -/
theorem answers_handle {env : Env} {c : Conn} {packet : Packet} {ops : List Op} (h : c.handle env packet = some ops) :
    ∀ op ∈ ops, answers op = none :=
  forall_handle h (fun _ _ _ => rfl) (fun userId next found _ _ => answers_found userId found next) (fun _ _ => rfl)
    (fun _ _ => rfl) (fun _ => rfl) rfl

/-! ## The steps -/

structure Inv (w : Watched) : Prop where
  rooms : RoomsOk w.log w.sys.rooms
  answering : Answering w.sys.conns w.seen
  answered : ∀ sender roomId seen, .answered sender roomId seen ∈ w.log → (roomId, sender) ∈ seen

section

variable {env : Env} {w : Watched} {s : Sys} {userId : Text} {session : Nat} {c : Conn} {op : Op} {rest : List Op}
  {now : Nat} {found : Option Text} {fresh : Text}

/-- What a step has to show. -/
theorem Inv.next (h : Inv w) {a : Action} (hrooms : RoomsOk (w.events a ++ w.log) s.rooms)
    (hanswering : Answering s.conns (w.after a s).seen)
    (hanswered : ∀ sender roomId seen, .answered sender roomId seen ∈ w.events a → (roomId, sender) ∈ seen) :
    Inv (w.after a s) := by
  refine ⟨hrooms, hanswering, fun sender roomId seen hmem => ?_⟩
  rcases List.mem_append.mp hmem with hnew | hold
  · exact hanswered sender roomId seen hnew
  · exact h.answered sender roomId seen hold

theorem seen_subset {a : Action} {n : Nat} (ha : Action.reads n a = false) : w.seen n ⊆ (w.after a s).seen n := by
  intro m hm
  refine List.mem_append_right _ ?_
  rw [if_neg (by rw [ha]; exact Bool.false_ne_true)]
  exact hm

theorem events_run (now : Nat) (found : Option Text) (userId fresh : Text) (hc : w.sys.conns.lookup session = some c) (hops : c.ops = op :: rest) :
    w.events (.client userId session (.run now found fresh)) = opEvents w.sys.rooms userId (w.seen session) fresh op := by
  rw [Watched.events, nextOp_eq hc hops, Option.map_some, Option.getD_some]

theorem goodOp_of_good (hc : w.sys.conns.lookup session = some c) (hops : c.ops = op :: rest)
    (hgood : good w (.client userId session (.run now found fresh)) = true) : goodOp w.sys.rooms userId op = true := by
  rw [good, nextOp_eq hc hops, Option.all_some] at hgood
  exact hgood

/-- A section that is done, and the sections that it asks for: each is to give no answer yet, or one that the rooms have
seen. -/
theorem answering_run (h : Inv w) (hc : w.sys.conns.lookup session = some c) (hops : c.ops = op :: rest) (new : List Op)
    (hconns : s.conns = w.sys.conns.insert session { c with ops := new ++ rest })
    (hnew : ∀ o ∈ new, ∀ m ∈ answers o, m ∈ members s.rooms) :
    Answering s.conns (w.after (.client userId session (.run now found fresh)) s).seen := by
  rw [hconns]
  refine h.answering.insert (fun n _ => seen_subset rfl) fun o ho m hm => ?_
  rcases List.mem_append.mp ho with ho | ho
  · exact List.mem_append_left _ (hnew o ho m hm)
  · exact seen_subset rfl (h.answering session c hc o (hops ▸ List.mem_cons_of_mem _ ho) m hm)

/-- A section that leaves the rooms as they are. -/
theorem inv_quiet (h : Inv w) (hc : w.sys.conns.lookup session = some c) (hops : c.ops = op :: rest)
    (hevents : opEvents w.sys.rooms userId (w.seen session) fresh op = []) (new : List Op)
    (hconns : s.conns = w.sys.conns.insert session { c with ops := new ++ rest }) (hnew : ∀ o ∈ new, answers o = none)
    (hrooms : s.rooms = w.sys.rooms) : Inv (w.after (.client userId session (.run now found fresh)) s) := by
  have hevents' := (events_run now found userId fresh hc hops).trans hevents
  refine h.next ?_ (answering_run h hc hops _ hconns fun o ho m hm => ?_) fun sender roomId seen hmem => ?_
  · rw [hevents', hrooms]
    exact h.rooms
  · rw [hnew o ho] at hm
    cases hm
  · rw [hevents'] at hmem
    cases hmem

/-- A section that answers. -/
theorem inv_answer (h : Inv w) (hc : w.sys.conns.lookup session = some c) (hops : c.ops = op :: rest)
    {sender roomId : Text} (hanswers : answers op = some (roomId, sender))
    (hevents : opEvents w.sys.rooms userId (w.seen session) fresh op = [.answered sender roomId (w.seen session)])
    (hconns : s.conns = w.sys.conns.insert session { c with ops := rest }) (hrooms : s.rooms = w.sys.rooms) :
    Inv (w.after (.client userId session (.run now found fresh)) s) := by
  have hevents' := (events_run now found userId fresh hc hops).trans hevents
  refine h.next ?_ (answering_run h hc hops [] hconns fun o ho => by cases ho) fun sender' roomId' seen hmem => ?_
  · rw [hevents', hrooms]
    exact h.rooms.mono fun _ he => List.mem_cons_of_mem _ he
  · rw [hevents'] at hmem
    obtain ⟨rfl, rfl, rfl⟩ := Event.answered.inj (List.mem_singleton.mp hmem)
    exact h.answering session c hc op (hops ▸ List.mem_cons_self) _ hanswers

/-- A section that adds its sender to a room. -/
theorem inv_added (h : Inv w) (hc : w.sys.conns.lookup session = some c) (hops : c.ops = op :: rest)
    (sender roomId : Text) (hevents : opEvents w.sys.rooms userId (w.seen session) fresh op = [.added userId sender roomId])
    {reply : Op} (hanswers : answers reply = some (roomId, sender))
    (hconns : s.conns = w.sys.conns.insert session { c with ops := [reply] ++ rest })
    (hrooms : RoomsOk (.added userId sender roomId :: w.log) s.rooms) (hmember : (roomId, sender) ∈ members s.rooms) :
    Inv (w.after (.client userId session (.run now found fresh)) s) := by
  have hevents' := (events_run now found userId fresh hc hops).trans hevents
  refine h.next ?_ (answering_run h hc hops _ hconns fun o ho m hm => ?_) fun sender' roomId' seen hmem => ?_
  · rw [hevents']
    exact hrooms
  · obtain rfl := List.mem_singleton.mp ho
    rw [hanswers] at hm
    obtain rfl := Option.some.inj hm
    exact hmember
  · rw [hevents'] at hmem
    cases List.mem_singleton.mp hmem

theorem inv_runOp (h : Inv w) (hc : w.sys.conns.lookup session = some c) (hops : c.ops = op :: rest)
    (hgood : goodOp w.sys.rooms userId op = true) (hrun : w.sys.runOp env session c rest now found fresh op = some s) :
    Inv (w.after (.client userId session (.run now found fresh)) s) := by
  cases op with
  | activeRoom user next =>
    rw [Sys.runOp, Option.ite_none_right_eq_some, Option.some.injEq] at hrun
    obtain ⟨-, rfl⟩ := hrun
    exact inv_quiet h hc hops rfl _ rfl (answers_found user found next) rfl
  | touch roomId =>
    obtain rfl := Option.some.inj hrun
    have hevents := events_run now found userId fresh hc hops
    refine h.next ?_ (answering_run h hc hops [] rfl fun o ho => by cases ho) fun sender roomId seen hmem => ?_
    · rw [hevents]
      exact h.rooms.change (comesFrom_touch _ roomId now) (fun _ he => he) fun _ _ _ _ hnone => hnone.2.elim
    · rw [hevents] at hmem
      cases hmem
  | createJoin user sender room existing qos =>
    obtain rfl := Option.some.inj hrun
    obtain ⟨r, hr, huser⟩ := Option.any_eq_true .. |>.mp hgood
    have hjoined := join_fst w.sys.rooms now existing sender
    refine inv_added h hc hops sender existing ?_ rfl rfl ?_ ?_
    · simp [opEvents, hr]
    · dsimp only
      rw [hjoined]
      exact h.rooms.join hr (beq_iff_eq.mp huser) now
    · dsimp only
      rw [hjoined]
      exact mem_members_join hr now
  | insert user sender room qos =>
    rw [Sys.runOp, Option.ite_none_right_eq_some, Option.some.injEq] at hrun
    obtain ⟨-, rfl⟩ := hrun
    rw [goodOp, Bool.and_eq_true, beq_iff_eq, Bool.not_eq_true', List.any_eq_false] at hgood
    obtain ⟨rfl, hnone⟩ := hgood
    refine inv_added h hc hops sender fresh rfl rfl rfl (h.rooms.insert fun id r hr => ?_) ?_
    · exact fun heq => hnone ⟨id, r⟩ (mem_entries_iff.mpr hr) (beq_iff_eq.mpr heq)
    · exact mem_members.mpr ⟨_, by rw [lookup_insert, if_pos rfl], List.mem_singleton_self _⟩
  | join user sender roomId qos =>
    simp only [Sys.runOp] at hrun
    split at hrun
    · next rooms hjoin =>
      obtain rfl := Option.some.inj hrun
      obtain ⟨⟨r, hr⟩, rfl⟩ := join_eq_true hjoin
      rw [goodOp, hr, Option.all_some, beq_iff_eq] at hgood
      refine inv_added h hc hops sender roomId ?_ rfl rfl (h.rooms.join hr hgood now) (mem_members_join hr now)
      simp [opEvents, hr]
    · next rooms hjoin =>
      obtain rfl := Option.some.inj hrun
      obtain ⟨hnone, rfl⟩ := join_eq_false hjoin
      refine inv_quiet h hc hops ?_ [.roomNotFound user sender roomId qos] rfl (fun o ho => ?_) rfl
      · simp [opEvents, hnone]
      · obtain rfl := List.mem_singleton.mp ho
        rfl
  | peers user sender roomId body qos =>
    obtain rfl := Option.some.inj hrun
    refine inv_quiet h hc hops rfl _ rfl (fun o ho => ?_) rfl
    obtain ⟨peer, -, rfl⟩ := List.mem_map.mp ho
    rfl
  | roomCreated user sender room roomId qos =>
    obtain rfl := Option.some.inj hrun
    exact inv_answer h hc hops rfl rfl rfl rfl
  | roomJoined user sender roomId qos =>
    obtain rfl := Option.some.inj hrun
    exact inv_answer h hc hops rfl rfl rfl rfl
  | roomNotFound user sender roomId qos =>
    obtain rfl := Option.some.inj hrun
    exact inv_quiet h hc hops rfl [] rfl (fun o ho => by cases ho) rfl
  | publish p =>
    obtain rfl := Option.some.inj hrun
    exact inv_quiet h hc hops rfl [] rfl (fun o ho => by cases ho) rfl
  | subscribe filter qos =>
    obtain rfl := Option.some.inj hrun
    exact inv_quiet h hc hops rfl [] rfl (fun o ho => by cases ho) rfl
  | unsubscribe topics =>
    obtain rfl := Option.some.inj hrun
    exact inv_quiet h hc hops rfl [] rfl (fun o ho => by cases ho) rfl
  | leave =>
    obtain rfl := Option.some.inj hrun
    have hevents := events_run now found userId fresh hc hops
    refine h.next ?_ ((h.answering.erase session).mono fun n => seen_subset rfl) fun sender roomId seen hmem => ?_
    · rw [hevents]
      unfold Sys.removeClient
      split
      · exact h.rooms.change (comesFrom_leave _ c.clientId) (fun _ he => he) fun _ _ _ _ hnone => hnone.elim
      · exact h.rooms
    · rw [hevents] at hmem
      cases hmem

/-- A session is registered, with nothing to do. -/
theorem inv_register (h : Inv w) {a : Action} (hevents : w.events a = []) (hreads : ∀ n, Action.reads n a = false)
    {subscriptions : List (Text × QoS)} (hnothing : c.ops = []) (hregister : w.sys.register session c subscriptions = some s) :
    Inv (w.after a s) := by
  obtain ⟨-, rfl⟩ := register_eq_some hregister
  refine h.next ?_ (h.answering.insert (fun n _ => seen_subset (hreads n)) fun o ho => ?_) fun sender roomId seen hmem => ?_
  · rw [hevents]
    exact h.rooms
  · rw [hnothing] at ho
    cases ho
  · rw [hevents] at hmem
    cases hmem

theorem inv_step {a : Action} (h : Inv w) (hgood : good w a = true) (hstep : step env w.sys a = some s) :
    Inv (w.after a s) := by
  cases a with
  | client userId session does =>
    cases does with
    | connect clientId => exact inv_register h rfl (fun _ => rfl) rfl hstep
    | attach clientId filters => exact inv_register h rfl (fun _ => rfl) rfl hstep
    | receive packet =>
      obtain ⟨c, ops, hc, -, -, hhandle, rfl⟩ := receive_eq_some hstep
      refine h.next h.rooms (h.answering.insert (fun n hn => seen_subset ?_) fun o ho m hm => ?_) fun _ _ _ hmem => by
        cases hmem
      · exact beq_eq_false_iff_ne.mpr fun heq => hn heq.symm
      · rw [answers_handle hhandle o ho] at hm
        cases hm
    | run now found fresh =>
      obtain ⟨c, op, rest, hc, -, hops, hrun⟩ := run_eq_some hstep
      exact inv_runOp h hc hops (goodOp_of_good hc hops hgood) hrun
  | collect =>
    obtain ⟨-, rfl⟩ := collect_eq_some hstep
    exact h.next h.rooms (h.answering.mono fun n => seen_subset rfl) fun _ _ _ hmem => by cases hmem
  | sweep now =>
    obtain ⟨connected, -, rfl⟩ := sweep_eq_some hstep
    have hrooms := h.rooms.change (comesFrom_sweep w.sys.rooms now (connected.map (·.1))) (fun _ he => he) fun _ _ _ _ hnone => hnone.elim
    exact h.next hrooms (h.answering.mono fun n => seen_subset rfl) fun _ _ _ hmem => by cases hmem

end

theorem inv_empty : Inv .empty := by
  constructor
  · constructor
    · exact fun id id' r r' hr => by cases hr
    · exact fun id r hr => by cases hr
    · exact fun id r hr => by cases hr
  · exact fun n c hc => by cases hc
  · exact fun sender roomId seen hmem => by cases hmem

/-! ## Runs -/

theorem Inv.consistent {w : Watched} (h : Inv w) : Consistent w := ⟨h.rooms.one, h.rooms.nonempty, h.rooms.added, h.answered⟩

/-- In every run whose steps are good, the rooms are consistent in every state. -/
theorem consistent_of_good (env : Env) (as : List Action) (w : Watched)
    (hgood : AllGood (watch env) (fun w a => good w a = true) .empty as) (hrun : run (watch env) .empty as = some w) :
    Consistent w := by
  have hinv : Inv w := by
    refine invariant_of_allGood (fun w a w' h hgood hwatch => ?_) inv_empty hgood hrun
    obtain ⟨s, hstep, rfl⟩ := Option.map_eq_some_iff.mp hwatch
    exact inv_step h hgood hstep
  exact hinv.consistent

def tablet : Action := .client "u".toList 1 (.connect "tablet".toList)

def desktop : Action := .client "u".toList 2 (.connect "desktop".toList)

def leaves (session : Nat) : List Action :=
  .client "u".toList session (.receive .disconnect) :: runs "u".toList session [none] []

/-- The tablet makes a room, the desktop joins it by the same signal, and the tablet leaves. -/
def sharedRoom : List Action :=
  [tablet, desktop] ++ creates "u".toList "tablet".toList 1 "r".toList ++
    signals "u".toList "desktop".toList 2 createRoomText ::
      runs "u".toList 2 [some "r".toList, none, some "r".toList, none, none, none] [] ++
    leaves 1 ++ [.collect, .sweep (70 * 1000000000)]

theorem consistent_of_good_sharedRoom : ∃ w, run (watch plainEnv) .empty sharedRoom = some w ∧ Consistent w := by
  have hgood : AllGood (watch plainEnv) (fun w a => good w a = true) .empty sharedRoom := by decide +kernel
  have hend : (run (watch plainEnv) .empty sharedRoom).isSome = true := by decide +kernel
  obtain ⟨w, hrun⟩ := Option.isSome_iff_exists.mp hend
  exact ⟨w, hrun, consistent_of_good plainEnv sharedRoom w hgood hrun⟩

/-- Tablet and desktop find no room, and each makes one. -/
def twoRooms : List Action :=
  [tablet, desktop] ++
    signals "u".toList "tablet".toList 1 createRoomText :: runs "u".toList 1 [none, none] [] ++
    signals "u".toList "desktop".toList 2 createRoomText :: runs "u".toList 2 [none, none] [] ++
    runs "u".toList 1 [none] "r".toList ++ runs "u".toList 2 [none] "q".toList

/-- A client of another user names the tablet's room. -/
def strangerJoins : List Action :=
  tablet :: creates "u".toList "tablet".toList 1 "r".toList ++
    .client "v".toList 2 (.connect "other".toList) ::
      signals "v".toList "other".toList 2 joinRoomText :: runs "v".toList 2 [none, none] []

/-- The tablet leaves after the desktop found its room and before it joins. -/
def closedRoom : List Action :=
  [tablet, desktop] ++ creates "u".toList "tablet".toList 1 "r".toList ++
    signals "u".toList "desktop".toList 2 createRoomText :: runs "u".toList 2 [some "r".toList, none, some "r".toList] [] ++
    leaves 1 ++ runs "u".toList 2 [none, none] []

theorem not_consistent : (∃ w, run (watch plainEnv) .empty twoRooms = some w ∧ ¬Consistent w) ∧
    (∃ w, run (watch plainEnv) .empty strangerJoins = some w ∧ ¬Consistent w) ∧
    ∃ w, run (watch plainEnv) .empty closedRoom = some w ∧ ¬Consistent w := by
  refine ⟨?_, ?_, ?_⟩
  · have hend : (run (watch plainEnv) .empty twoRooms).map (fun w => (w.sys.rooms.lookup "r".toList,
        w.sys.rooms.lookup "q".toList)) = some (some ⟨"u".toList, ["tablet".toList], 0, 0⟩,
          some ⟨"u".toList, ["desktop".toList], 0, 0⟩) := by decide +kernel
    obtain ⟨w, hrun, hw⟩ := Option.map_eq_some_iff.mp hend
    obtain ⟨hr, hq⟩ := Prod.mk.inj hw
    exact ⟨w, hrun, fun h => absurd (h.one _ _ _ _ hr hq rfl) (by decide)⟩
  · have hend : (run (watch plainEnv) .empty strangerJoins).map (fun w => (w.sys.rooms.lookup "r".toList,
        decide (.added "u".toList "other".toList "r".toList ∈ w.log))) =
        some (some ⟨"u".toList, ["tablet".toList, "other".toList], 0, 0⟩, false) := by decide +kernel
    obtain ⟨w, hrun, hw⟩ := Option.map_eq_some_iff.mp hend
    obtain ⟨hr, hlog⟩ := Prod.mk.inj hw
    exact ⟨w, hrun, fun h => of_decide_eq_false hlog (h.added _ _ hr "other".toList (by decide))⟩
  · have hend : (run (watch plainEnv) .empty closedRoom).map (fun w => w.log.head?) =
        some (some (.answered "desktop".toList "r".toList (List.replicate 5 ("r".toList, "tablet".toList)))) := by
      decide +kernel
    obtain ⟨w, hrun, hw⟩ := Option.map_eq_some_iff.mp hend
    exact ⟨w, hrun, fun h => absurd (h.answered _ _ _ (List.mem_of_mem_head? hw)) (by decide)⟩

end ScreenshareBrokerRooms
