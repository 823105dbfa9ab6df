import RemarkableServer.CalDavRequests

/-!
# Where the requests of a CalDAV sync go

Whether a hop is followed depends on the URL it starts from, and not on the
configured one. What is kept along every chain of redirects and hrefs, and in
the collection that is stored, is that a URL is of the configured origin or of
HTTPS, and that its host is the configured one or not internal.
-/
namespace CalDavReach

open RustText CalDav CalDavRequests InternalAddresses Effect

/-! ## Origins -/

/-- A plain host, or an IPv6 address in brackets. -/
def HostText (host : Text) : Prop :=
  (':' ∉ host ∧ '[' ∉ host) ∨ ∃ address, host = '[' :: (address ++ [']']) ∧ ']' ∉ address

/-- How the parser writes the parts of a URL: no colon in the scheme, and hosts in lower case. -/
structure WellFormed (u : Url) : Prop where
  scheme : ':' ∉ u.scheme
  host : HostText u.host
  lower : u.host.map Char.toLower = u.host

/-- What comes before the first separator, and what comes after it. -/
theorem eq_of_append_cons {α : Type} {sep : α} {a b x y : List α} (ha : sep ∉ a) (hb : sep ∉ b)
    (h : a ++ sep :: x = b ++ sep :: y) : a = b ∧ x = y := by
  induction a generalizing b with
  | nil =>
    cases b with
    | nil => exact ⟨rfl, (List.cons.inj h).2⟩
    | cons c b => exact absurd ((List.cons.inj h).1 ▸ List.mem_cons_self) hb
  | cons c a ih =>
    cases b with
    | nil => exact absurd ((List.cons.inj h).1 ▸ List.mem_cons_self) ha
    | cons d b =>
      simp only [List.cons_append, List.cons.injEq] at h
      obtain ⟨rfl, hxy⟩ := ih (fun hm => ha (List.mem_cons_of_mem _ hm)) (fun hm => hb (List.mem_cons_of_mem _ hm)) h.2
      exact ⟨by rw [h.1], hxy⟩

/-- A port is nothing, or a colon and what is after it. -/
theorem host_eq_of_append {a b p q : Text} (ha : HostText a) (hb : HostText b) (hp : p = [] ∨ ∃ t, p = ':' :: t)
    (hq : q = [] ∨ ∃ t, q = ':' :: t) (h : a ++ p = b ++ q) : a = b := by
  rcases ha with ⟨hac, hab⟩ | ⟨x, rfl, hx⟩ <;> rcases hb with ⟨hbc, hbb⟩ | ⟨y, rfl, hy⟩
  · rcases hp with rfl | ⟨s, rfl⟩ <;> rcases hq with rfl | ⟨t, rfl⟩
    · simpa using h
    · rw [List.append_nil] at h
      exact absurd (h ▸ List.mem_append_right b List.mem_cons_self) hac
    · rw [List.append_nil] at h
      exact absurd (h ▸ List.mem_append_right a List.mem_cons_self) hbc
    · exact (eq_of_append_cons hac hbc h).1
  · exfalso
    cases a with
    | nil =>
      rcases hp with rfl | ⟨s, rfl⟩
      · cases h
      · exact absurd (List.cons.inj h).1 (by decide)
    | cons c a => exact hab ((List.cons.inj h).1 ▸ List.mem_cons_self)
  · exfalso
    cases b with
    | nil =>
      rcases hq with rfl | ⟨s, rfl⟩
      · cases h
      · exact absurd (List.cons.inj h).1 (by decide)
    | cons c b => exact hbb ((List.cons.inj h).1 ▸ List.mem_cons_self)
  · simp only [List.cons_append, List.append_assoc, List.cons.injEq, true_and, List.nil_append] at h
    rw [(eq_of_append_cons hx hy h).1]

/-- The origin tells the scheme and the host. -/
theorem eq_of_origin {u v : Url} (hu : WellFormed u) (hv : WellFormed v) (h : u.origin = v.origin) :
    u.scheme = v.scheme ∧ u.host = v.host := by
  have hport : ∀ w : Url, (w.port.map fun p => ':' :: showU64 p).getD [] = [] ∨
      ∃ t, (w.port.map fun p => ':' :: showU64 p).getD [] = ':' :: t := by
    intro w
    cases w.port with
    | none => exact .inl rfl
    | some p => exact .inr ⟨_, rfl⟩
  simp only [Url.origin, List.append_assoc] at h
  obtain ⟨hscheme, h⟩ := eq_of_append_cons hu.scheme hv.scheme h
  exact ⟨hscheme, host_eq_of_append hu.host hv.host (hport u) (hport v) (List.cons.inj (List.cons.inj h).2).2⟩

/-! ## What is reached -/

variable {Event Expansion : Type}

/-- The URLs that the parser makes. -/
def Made (client : Client Event Expansion) (u : Url) : Prop :=
  (∃ t, client.urls.parse t = some u) ∨ ∃ source t, client.env.join source t = some u

/-- What is relied on of the URL parser; and the environment's test of internal hosts is the sync's own. -/
structure Lawful (client : Client Event Expansion) : Prop where
  internal : client.env.isInternal = isInternal client.urls
  wellFormed : ∀ u, Made client u → WellFormed u
  parse_display : ∀ u, Made client u → client.urls.parse (client.urls.display u) = some u

/-- The configured origin or HTTPS, and the configured host or one that is not internal. -/
structure Reach (client : Client Event Expansion) (configured u : Url) : Prop where
  made : Made client u
  origin : u.origin = configured.origin ∨ u.scheme = "https".toList
  host : u.host = configured.host ∨ isInternal client.urls u = false

theorem isInternal_of_host {urls : Urls} {u v : Url} (h : u.host = v.host) : isInternal urls u = isInternal urls v := by
  simp only [isInternal, domain, h]

variable {client : Client Event Expansion}

theorem reach_configured {configured : Url} {t : Text} (h : client.urls.parse t = some configured) :
    Reach client configured configured := ⟨.inl ⟨t, h⟩, .inl rfl, .inl rfl⟩

/-- A hop that is followed leads from where the chain may be to where it may be. -/
theorem reach_follow (hclient : Lawful client) {configured source next : Url} {target : Text}
    (hsource : Reach client configured source) (hfollow : follow client.env source target = some next) :
    Reach client configured next := by
  obtain ⟨hjoin, hcond⟩ := Option.filter_eq_some_iff.mp hfollow
  have hmade : Made client next := .inr ⟨source, target, hjoin⟩
  simp only [Bool.or_eq_true, beq_iff_eq, Bool.and_eq_true, Bool.not_eq_true', Bool.and_eq_false_iff,
    bne_eq_false_iff_eq] at hcond
  rcases hcond with hsame | ⟨hhttps, hhost⟩
  · obtain ⟨hscheme, heq⟩ := eq_of_origin (hclient.wellFormed next hmade) (hclient.wellFormed source hsource.made) hsame
    exact ⟨hmade, by rw [hsame, hscheme]; exact hsource.origin,
      by rw [heq, isInternal_of_host heq]; exact hsource.host⟩
  · refine ⟨hmade, .inr hhttps, ?_⟩
    rcases hhost with heq | hpublic
    · rw [heq, isInternal_of_host heq]
      exact hsource.host
    · exact .inr (hclient.internal ▸ hpublic)

/-! ## Answers -/

/-- The URLs that a resource names. -/
def named (r : Resource) : List Url := r.href.toList ++ r.principal.toList ++ r.calendarHome.toList

/-- Every URL that a resource names was followed from the URL that answered. -/
def Followed (env : Env Event Expansion) (base : Url) (r : Resource) : Prop :=
  ∀ u ∈ named r, ∃ target, follow env base target = some u

theorem followed_iff {env : Env Event Expansion} {base : Url} {r : Resource} : Followed env base r ↔
    (∀ u ∈ r.href, ∃ target, follow env base target = some u) ∧
      (∀ u ∈ r.principal, ∃ target, follow env base target = some u) ∧
        ∀ u ∈ r.calendarHome, ∃ target, follow env base target = some u := by
  simp only [Followed, named, List.mem_append, Option.mem_toList, Option.mem_def, or_imp, forall_and, and_assoc]

theorem follow_of_hrefIn {env : Env Event Expansion} {e : Element} {base u : Url} (h : hrefIn env e base = some u) :
    ∃ target, follow env base target = some u := by
  obtain ⟨href, -, hfollow⟩ := Option.bind_eq_some_iff.mp h
  exact ⟨_, hfollow⟩

theorem followed_readProp {env : Env Event Expansion} {base : Url} {r : Resource} (h : Followed env base r) (p : Element) :
    Followed env base (readProp env base r p) := by
  rw [followed_iff] at h ⊢
  obtain ⟨hhref, hprincipal, hhome⟩ := h
  unfold readProp
  split_ifs
  · exact ⟨hhref, hprincipal, hhome⟩
  · exact ⟨hhref, hprincipal, hhome⟩
  · exact ⟨hhref, fun u hu => follow_of_hrefIn hu, hhome⟩
  · exact ⟨hhref, hprincipal, hhome⟩
  · exact ⟨hhref, hprincipal, hhome⟩
  · exact ⟨hhref, hprincipal, fun u hu => follow_of_hrefIn hu⟩
  · exact ⟨hhref, hprincipal, hhome⟩
  · exact ⟨hhref, hprincipal, hhome⟩
  · exact ⟨hhref, hprincipal, hhome⟩

theorem followed_readProps {env : Env Event Expansion} {base : Url} (props : List Element) {r : Resource}
    (h : Followed env base r) : Followed env base (props.foldl (readProp env base) r) := by
  induction props generalizing r with
  | nil => exact h
  | cons p props ih => exact ih (followed_readProp h p)

theorem followed_readPropstat {env : Env Event Expansion} {base : Url} {r : Resource} (h : Followed env base r)
    (propstat : Element) : Followed env base (readPropstat env base r propstat) := by
  unfold readPropstat
  dsimp only
  cases statusCode propstat with
  | none =>
    dsimp only
    split
    · exact h
    · exact followed_readProps _ h
  | some code =>
    cases code with
    | none => exact h
    | some code =>
      dsimp only
      split_ifs
      · split
        · exact h
        · exact followed_readProps _ h
      · exact h
      · exact h

theorem followed_resourceOf (env : Env Event Expansion) (base : Url) (response : Element) :
    Followed env base (resourceOf env base response) := by
  unfold resourceOf
  have hstart : Followed env base
      { failure := responseFailure response
        href := hrefIn env response base
        isCalendar := false
        displayName := none
        components := none
        principal := none
        calendarHome := none
        etag := none
        calendarData := none } := by
    rw [followed_iff]
    refine ⟨fun u hu => follow_of_hrefIn hu, ?_, ?_⟩ <;> intro u hu <;> cases hu
  revert hstart
  generalize response.childrenNamed dav "propstat".toList = propstats
  intro hstart
  induction propstats using List.reverseRecOn with
  | nil => exact hstart
  | append_singleton propstats propstat ih =>
    rw [List.foldl_append]
    exact followed_readPropstat ih propstat

/-- What an answer names may be reached when the URL that answered may. -/
theorem reach_named (hclient : Lawful client) {configured base : Url} (hbase : Reach client configured base) {body : Text}
    {resources : List Resource} (h : parseResources client.env base body = .ok resources) :
    ∀ r ∈ resources, ∀ u ∈ named r, Reach client configured u := by
  intro r hr u hu
  obtain ⟨responses, -, rfl⟩ := map_eq_ok.mp h
  obtain ⟨response, -, rfl⟩ := List.mem_map.mp hr
  obtain ⟨target, hfollow⟩ := followed_resourceOf client.env base response u hu
  exact reach_follow hclient hbase hfollow

/-! ## Requests -/

/-- The local host, by any of its names. -/
def isLocalhost (name : Text) : Bool :=
  normalize name == "localhost".toList || endsWith (normalize name) ".localhost".toList

/-- An IP literal that is internal, or a name of the local host. -/
def NamesInternal (urls : Urls) (u : Url) : Prop :=
  (∃ ip, urls.ipLiteral u.host = some ip ∧ isInternalIp ip = true) ∨
    ∃ name, domain urls u = some name ∧ isLocalhost name = true

def SameSite (urls : Urls) (a b : Url) : Prop :=
  ∃ x y s, domain urls a = some x ∧ domain urls b = some y ∧ site x = some s ∧ site y = some s

/-- Where a request may go, and where it may take the credentials. -/
structure Permitted (urls : Urls) (configured : Url) (r : Request) : Prop where
  origin : r.url.origin = configured.origin ∨ r.url.scheme = "https".toList
  host : r.url.host = configured.host ∨ ¬ NamesInternal urls r.url
  credentials : r.authorization ≠ none →
    r.url.host = configured.host ∨ (r.url.scheme = "https".toList ∧ SameSite urls configured r.url)

theorem map_toLower_rdropWhile {t : Text} (h : t.map Char.toLower = t) (p : Char → Bool) :
    (t.rdropWhile p).map Char.toLower = t.rdropWhile p := by
  obtain ⟨rest, hrest⟩ := List.rdropWhile_prefix p t
  rw [← hrest, List.map_append] at h
  exact (List.append_inj h (by simp)).1

theorem not_namesInternal {urls : Urls} {u : Url} (hu : WellFormed u) (h : isInternal urls u = false) :
    ¬ NamesInternal urls u := by
  unfold isInternal at h
  rintro (⟨ip, hip, hinternal⟩ | ⟨name, hname, hlocal⟩)
  · have hdomain : domain urls u = none := by simp [domain, hip]
    rw [hdomain] at h
    simp [hip, hinternal] at h
  · rw [hname] at h
    have heq : name = u.host := by
      unfold domain at hname
      split at hname
      · cases hname
      · exact (Option.some.inj hname).symm
    have hlower := map_toLower_rdropWhile hu.lower (· == '.')
    rw [isLocalhost, InternalAddresses.normalize, heq, hlower] at hlocal
    simp only [heq, Bool.or_eq_false_iff] at h
    rw [h.2, Bool.or_false, beq_iff_eq] at hlocal
    rw [hlocal] at h
    exact absurd h.1 (by decide)

theorem sameSite_of_maySend {urls : Urls} {configured target : Url} (h : maySendCredentials urls configured target = true) :
    target.host = configured.host ∨ (target.scheme = "https".toList ∧ SameSite urls configured target) := by
  unfold maySendCredentials at h
  split at h
  · next hhost => exact .inl (beq_iff_eq.mp hhost).symm
  · split at h
    · next x y hx hy =>
      simp only [Bool.and_eq_true, beq_iff_eq, Option.any_eq_true] at h
      obtain ⟨hscheme, s, hs, hs'⟩ := h
      exact .inr ⟨hscheme, x, y, s, hx, hy, hs, hs'⟩
    · cases h

/-- Without credentials there is no header. -/
theorem hasCredentials_of_authorize {a : Account} (h : a.authorize ≠ none) : a.hasCredentials = true := by
  obtain ⟨url, username, password, bearerToken⟩ := a
  cases bearerToken with
  | some _ => rfl
  | none =>
    cases password with
    | some _ => rfl
    | none =>
      cases username with
      | nil => exact absurd rfl h
      | cons _ _ => rfl

variable {dav : Dav Event Expansion}

def Sent (dav : Dav Event Expansion) (log : List Request) : Prop := ∀ r ∈ log, Permitted dav.urls dav.configured r

theorem sent_cons {log : List Request} (h : Sent dav log) {r : Request} (hr : Permitted dav.urls dav.configured r) :
    Sent dav (r :: log) := List.forall_mem_cons.mpr ⟨hr, h⟩

theorem triple_ofExcept {α : Type} {x : Except CalendarError α} {I : List Request → Prop} {Q : α → Prop}
    (h : ∀ a, x = .ok a → Q a) : Triple I (ofExcept x) (fun a log => I log ∧ Q a) I := by
  cases x with
  | ok a => exact fun log hlog => ⟨hlog, h a rfl⟩
  | error e => exact fun log hlog => hlog

theorem keeps_transport (context : Text) {r : Request} (hr : Permitted dav.urls dav.configured r) :
    Keeps (Sent dav) (dav.transport context r) := by
  unfold Dav.transport
  split
  · exact fun log hlog => sent_cons hlog hr
  · exact Keeps.throw _

theorem triple_hop (hlaw : Lawful dav.toClient) {source : Url} (hsource : Reach dav.toClient dav.configured source)
    (target : Text) : Triple (Sent dav) (dav.hop source target)
      (fun next log => Sent dav log ∧ Reach dav.toClient dav.configured next) (Sent dav) := by
  unfold Dav.hop
  split
  · next next hfollow => exact fun log hlog => ⟨hlog, reach_follow hlaw hsource hfollow⟩
  · exact Triple.throw _

/-- Every round of a request keeps to what is permitted, and the URL that answers may be reached. -/
theorem triple_sendFrom (hlaw : Lawful dav.toClient) (method : Text) (depth : Option Text) (body : Text) (n : Nat) {url : Url}
    (hurl : Reach dav.toClient dav.configured url) :
    Triple (Sent dav) (dav.sendFrom method depth body n url)
      (fun response log => Sent dav log ∧ Reach dav.toClient dav.configured response.url) (Sent dav) := by
  induction n generalizing url with
  | zero => exact Triple.throw _
  | succ n ih =>
    rw [Dav.sendFrom]
    split
    · exact Triple.throw _
    · next hcredentials =>
      have hpermitted : Permitted dav.urls dav.configured ⟨method, url, depth, body, dav.account.authorize⟩ := by
        refine ⟨hurl.origin, hurl.host.imp_right (not_namesInternal (hlaw.wellFormed url hurl.made)), fun hauth => ?_⟩
        rw [hasCredentials_of_authorize hauth] at hcredentials
        exact sameSite_of_maySend (by simpa using hcredentials)
      refine Triple.bind (keeps_transport _ hpermitted) fun outcome => ?_
      cases outcome with
      | failed message => exact Triple.throw _
      | response status location answer =>
        dsimp only
        split
        · cases location with
          | none => exact Triple.throw _
          | some location =>
            exact Triple.bind (triple_hop hlaw hurl location) fun next => Triple.assume fun hnext => ih hnext
        · exact Triple.bind (triple_ofExcept fun _ _ => hurl) fun body => Triple.pure fun log hlog => hlog

theorem triple_send (hlaw : Lawful dav.toClient) (method : Text) {url : Url} (hurl : Reach dav.toClient dav.configured url)
    (depth : Option Text) (body : Text) :
    Triple (Sent dav) (dav.send method url depth body)
      (fun response log => Sent dav log ∧ Reach dav.toClient dav.configured response.url) (Sent dav) :=
  triple_sendFrom hlaw method depth body _ hurl

/-! ## Discovery -/

/-- The URL that answered and those that its resources name may be reached. -/
def Found (dav : Dav Event Expansion) (found : Option (Url × List Resource)) : Prop :=
  ∀ answer ∈ found, Reach dav.toClient dav.configured answer.1 ∧
    ∀ r ∈ answer.2, ∀ u ∈ named r, Reach dav.toClient dav.configured u

theorem triple_resources (hlaw : Lawful dav.toClient) {response : DavResponse}
    (hurl : Reach dav.toClient dav.configured response.url) :
    Triple (Sent dav) (dav.resources response) (fun found log => Sent dav log ∧ Found dav found) (Sent dav) := by
  refine Triple.bind (triple_ofExcept fun resources h => reach_named hlaw hurl h) fun resources => ?_
  refine Triple.pure fun log hlog => ⟨hlog.1, fun answer hanswer => ?_⟩
  obtain rfl := Option.some.inj hanswer
  exact ⟨hurl, hlog.2⟩

theorem found_none : Found dav none := fun _ h => by cases h

theorem triple_propfind (hlaw : Lawful dav.toClient) {url : Url} (hurl : Reach dav.toClient dav.configured url)
    (depth body : Text) :
    Triple (Sent dav) (dav.propfind url depth body) (fun found log => Sent dav log ∧ Found dav found) (Sent dav) := by
  refine Triple.bind (triple_send hlaw _ hurl _ _) fun response => Triple.assume fun hresponse => ?_
  split_ifs
  · exact triple_resources hlaw hresponse
  · exact Triple.pure fun log hlog => ⟨hlog, found_none⟩
  · exact Triple.throw _

theorem triple_probe (hlaw : Lawful dav.toClient) {url : Url} (hurl : Reach dav.toClient dav.configured url) :
    Triple (Sent dav) (dav.probe url) (fun found log => Sent dav log ∧ Found dav found) (Sent dav) := by
  refine Triple.bind (triple_send hlaw _ hurl _ _) fun response => Triple.assume fun hresponse => ?_
  split_ifs
  · exact triple_resources hlaw hresponse
  · exact Triple.throw _
  · exact Triple.pure fun log hlog => ⟨hlog, found_none⟩

theorem mem_named_of_href {r : Resource} {u : Url} (h : r.href = some u) : u ∈ named r := by simp [named, h]

theorem mem_named_of_principal {r : Resource} {u : Url} (h : r.principal = some u) : u ∈ named r := by simp [named, h]

theorem mem_named_of_calendarHome {r : Resource} {u : Url} (h : r.calendarHome = some u) : u ∈ named r := by
  simp [named, h]

theorem href_of_mem_calendarsOf {home : Url} {resources : List Resource} {c : Url × Option Text}
    (h : c ∈ calendarsOf home resources) : ∃ r ∈ resources, r.href = some c.1 := by
  obtain ⟨h, -⟩ := List.mem_filter.mp h
  obtain ⟨r, hr, hmap⟩ := List.mem_filterMap.mp h
  obtain ⟨href, hhref, rfl⟩ := Option.map_eq_some_iff.mp hmap
  exact ⟨r, (List.mem_filter.mp hr).1, hhref⟩

theorem triple_choose (home : Url) (name : Text) {calendars : List (Url × Option Text)}
    (hreach : ∀ c ∈ calendars, Reach dav.toClient dav.configured c.1) :
    Triple (Sent dav) (dav.choose home name calendars)
      (fun url log => Sent dav log ∧ Reach dav.toClient dav.configured url) (Sent dav) := by
  unfold Dav.choose
  split
  · exact Triple.throw _
  · next only name => exact Triple.pure fun log hlog => ⟨hlog, hreach (only, name) List.mem_cons_self⟩
  · split
    · next url name hfind => exact Triple.pure fun log hlog => ⟨hlog, hreach (url, name) (List.mem_of_find?_eq_some hfind)⟩
    · exact Triple.throw _

theorem triple_pickCalendar (hlaw : Lawful dav.toClient) {home : Url} (hhome : Reach dav.toClient dav.configured home)
    (name : Text) : Triple (Sent dav) (dav.pickCalendar home name)
      (fun url log => Sent dav log ∧ Reach dav.toClient dav.configured url) (Sent dav) := by
  refine Triple.bind (triple_propfind hlaw hhome _ _) fun found => Triple.assume fun hfound => ?_
  cases found with
  | none => exact Triple.throw _
  | some answer =>
    obtain ⟨-, hresources⟩ := hfound answer rfl
    refine triple_choose answer.1 name fun c hc => ?_
    obtain ⟨r, hr, hhref⟩ := href_of_mem_calendarsOf hc
    exact hresources r hr c.1 (mem_named_of_href hhref)

/-- A URL, if there is one, may be reached. -/
def MayReach (dav : Dav Event Expansion) (url : Option Url) : Prop := ∀ u ∈ url, Reach dav.toClient dav.configured u

theorem mayReach_none : MayReach dav none := fun _ h => by cases h

theorem mayReach_some {u : Url} (h : Reach dav.toClient dav.configured u) : MayReach dav (some u) :=
  fun _ hu => Option.some.inj hu ▸ h

theorem triple_some {x : Net Url}
    (h : Triple (Sent dav) x (fun url log => Sent dav log ∧ Reach dav.toClient dav.configured url) (Sent dav)) :
    Triple (Sent dav) (do return some (← x)) (fun url log => Sent dav log ∧ MayReach dav url) (Sent dav) :=
  Triple.bind h fun _ => Triple.pure fun _ hlog => ⟨hlog.1, mayReach_some hlog.2⟩

theorem triple_discoverFrom (hlaw : Lawful dav.toClient) {start : Url} (hstart : Reach dav.toClient dav.configured start)
    (name : Text) (guess : Bool) : Triple (Sent dav) (dav.discoverFrom start name guess)
      (fun url log => Sent dav log ∧ MayReach dav url) (Sent dav) := by
  have hfirst : Triple (Sent dav) (dav.look start guess) (fun found log => Sent dav log ∧ Found dav found) (Sent dav) := by
    unfold Dav.look
    split
    · exact triple_probe hlaw hstart
    · exact triple_propfind hlaw hstart _ _
  refine Triple.bind hfirst fun found => Triple.assume fun hfound => ?_
  match found with
  | none => exact Triple.pure fun log hlog => ⟨hlog, mayReach_none⟩
  | some (_, []) => exact Triple.pure fun log hlog => ⟨hlog, mayReach_none⟩
  | some (url, this :: rest) =>
    obtain ⟨hurl, hresources⟩ := hfound _ rfl
    have hthis := hresources this List.mem_cons_self
    dsimp only
    split
    · exact Triple.pure fun log hlog => ⟨hlog, mayReach_some hurl⟩
    · split
      · next _ _ home hhome =>
        exact triple_some (triple_pickCalendar hlaw (hthis home (mem_named_of_calendarHome hhome)) name)
      · exact Triple.pure fun log hlog => ⟨hlog, mayReach_none⟩
      · next principal _ hprincipal =>
        have hreach := hthis principal (mem_named_of_principal hprincipal)
        refine Triple.bind (triple_propfind hlaw hreach _ _) fun found => Triple.assume fun hfound => ?_
        split
        · next home hhome =>
          obtain ⟨r, hr, hhome⟩ := Option.bind_eq_some_iff.mp hhome
          obtain ⟨answer, hanswer, hhead⟩ := Option.bind_eq_some_iff.mp hr
          have hmem : r ∈ answer.2 := List.mem_of_head? hhead
          exact triple_some (triple_pickCalendar hlaw
            ((hfound answer hanswer).2 r hmem home (mem_named_of_calendarHome hhome)) name)
        · exact Triple.throw _

/-- What is found at the root may be reached, whatever the well-known location answered. -/
theorem triple_afterWellKnown (hlaw : Lawful dav.toClient) {start : Url} (hstart : Reach dav.toClient dav.configured start)
    (name : Text) (wellKnown : Except CalendarError (Option Url)) :
    Triple (Sent dav)
      (do CalDavRequests.ofExcept (Dav.afterWellKnown start wellKnown (← caught (dav.discoverFrom start name true))))
      (fun url log => Sent dav log ∧ Reach dav.toClient dav.configured url) (Sent dav) := by
  refine Triple.bind (Triple.caught (triple_discoverFrom hlaw hstart name true)) fun root => ?_
  cases root with
  | error e =>
    refine triple_ofExcept fun url h => ?_
    cases wellKnown <;> cases h
  | ok found =>
    refine Triple.assume fun hfound => triple_ofExcept fun url h => ?_
    cases found with
    | none => cases wellKnown <;> cases h
    | some u =>
      obtain rfl : u = url := by cases wellKnown <;> exact Except.ok.inj h
      exact hfound u rfl

/-- The discovery ends at a URL that may be reached, if it ends at one. -/
theorem triple_discover (hlaw : Lawful dav.toClient) {start : Url} (hstart : Reach dav.toClient dav.configured start)
    (name : Text) : Triple (Sent dav) (dav.discover start name)
      (fun url log => Sent dav log ∧ Reach dav.toClient dav.configured url) (Sent dav) := by
  unfold Dav.discover
  split
  · refine Triple.bind (triple_discoverFrom hlaw hstart name false) fun found => Triple.assume fun hfound => ?_
    cases found with
    | none => exact Triple.throw _
    | some url => exact Triple.pure fun log hlog => ⟨hlog, hfound url rfl⟩
  · refine Triple.bind (triple_hop hlaw hstart _) fun wellKnown => Triple.assume fun hwellKnown => ?_
    refine Triple.bind (Triple.caught (triple_discoverFrom hlaw hwellKnown name true)) fun fromWellKnown => ?_
    match fromWellKnown with
    | .error e => exact triple_afterWellKnown hlaw hstart name _
    | .ok none => exact Triple.assume fun _ => triple_afterWellKnown hlaw hstart name _
    | .ok (some found) =>
      refine Triple.assume fun hfound => ?_
      exact Triple.pure fun log hlog => ⟨hlog, hfound found rfl⟩

/-! ## The REPORTs -/

theorem readResource_url (env : Env Event Expansion) (expanded : Bool) (report : Report Event Expansion) (r : Resource) :
    (report.readResource env expanded r).url = report.url := by
  unfold Report.readResource
  cases r.calendarData with
  | none => rfl
  | some data =>
    dsimp only
    split
    · rfl
    · split
      · rfl
      · unfold Report.refused
        split <;> rfl

/-- The resources are read for the URL that answered. -/
theorem readReport_url {env : Env Event Expansion} {response : DavResponse} {calendarId : Text} {window : SyncWindow}
    {expanded : Bool} {report : Report Event Expansion} (h : readReport env response calendarId window expanded = .ok report) :
    report.url = response.url := by
  have hfold : ∀ (resources : List Resource) (start : Report Event Expansion),
      (resources.foldl (Report.readResource env expanded) start).url = start.url := by
    intro resources
    induction resources with
    | nil => exact fun _ => rfl
    | cons r resources ih => exact fun start => (ih _).trans (readResource_url env expanded start r)
  obtain ⟨resources, -, rfl⟩ := map_eq_ok.mp h
  exact hfold resources _

theorem triple_firstReport (hlaw : Lawful dav.toClient) {collection : Url}
    (hcollection : Reach dav.toClient dav.configured collection) (window : SyncWindow) :
    Triple (Sent dav) (dav.firstReport collection window)
      (fun answer log => Sent dav log ∧ Reach dav.toClient dav.configured answer.1.url) (Sent dav) := by
  refine Triple.bind (triple_send hlaw _ hcollection _ _) fun response => ?_
  split
  · refine Triple.assume fun _ => Triple.bind (triple_send hlaw _ hcollection _ _) fun plain => ?_
    exact Triple.pure fun log hlog => hlog
  · exact Triple.pure fun log hlog => hlog

theorem keeps_refetch (hlaw : Lawful dav.toClient) {report : Report Event Expansion}
    (hreport : Reach dav.toClient dav.configured report.url) : Keeps (Sent dav) (dav.refetch report) := by
  unfold Dav.refetch
  split
  · exact Keeps.pure _
  · refine Triple.bind (Triple.caught (triple_send hlaw _ hreport _ _)) fun answer => Triple.pure fun log hlog => ?_
    cases answer with
    | ok _ => exact hlog.1
    | error _ => exact hlog

theorem keeps_report (hlaw : Lawful dav.toClient) {collection : Url}
    (hcollection : Reach dav.toClient dav.configured collection) (calendarId : Text) (window : SyncWindow) :
    Keeps (Sent dav) (dav.report collection calendarId window) := by
  refine Triple.bind (triple_firstReport hlaw hcollection window) fun answer => Triple.assume fun hanswer => ?_
  obtain ⟨response, expanded⟩ := answer
  dsimp only
  split
  · exact Triple.throw _
  · refine Triple.bind (triple_ofExcept fun report h => readReport_url h) fun report => Triple.assume fun hurl => ?_
    exact Triple.bind (keeps_refetch hlaw (hurl ▸ hanswer)) fun _ => Triple.pure fun log hlog => hlog

/-! ## Syncs -/

/-- What is stored may be reached when it is read again. -/
def Remembered (client : Client Event Expansion) (configured : Url) (collectionUrl : Option Text) : Prop :=
  ∀ u, collectionUrl.bind client.urls.parse = some u → Reach client configured u

theorem keeps_caught {α : Type} {x : Net α} {I : List Request → Prop} (h : Keeps I x) : Keeps I (caught x) :=
  (Triple.caught h).mono (fun _ h => h) (fun r _ h => by cases r <;> exact h) fun _ h => h

theorem triple_fetchFrom (hlaw : Lawful dav.toClient) (hconfigured : Reach dav.toClient dav.configured dav.configured)
    {collectionUrl : Option Text} (hcollection : Remembered dav.toClient dav.configured collectionUrl) (sync : Sync) :
    Triple (Sent dav) (dav.fetchFrom collectionUrl sync)
      (fun result log => Sent dav log ∧ Remembered dav.toClient dav.configured result.2) (Sent dav) := by
  unfold Dav.fetchFrom
  split
  · next remembered hremembered =>
    refine Triple.bind (keeps_caught (keeps_report hlaw (hcollection remembered hremembered) _ _)) fun result => ?_
    refine Triple.pure fun log hlog => ⟨hlog, ?_⟩
    dsimp only
    split
    · exact fun u h => by cases h
    · exact hcollection
  · refine Triple.bind (Triple.caught (triple_discover hlaw hconfigured _)) fun found => ?_
    cases found with
    | error e => exact Triple.pure fun log hlog => ⟨hlog, hcollection⟩
    | ok url =>
      refine Triple.assume fun hurl => Triple.bind (keeps_caught (keeps_report hlaw hurl _ _)) fun result => ?_
      refine Triple.pure fun log hlog => ⟨hlog, fun u h => ?_⟩
      -- what was written down is what is read again
      have hread : dav.urls.parse (dav.urls.display url) = some u := h
      rw [hlaw.parse_display url hurl.made] at hread
      exact Option.some.inj hread ▸ hurl

/-- The requests that were sent are permitted for the configured URL of the account. -/
def AllPermitted (client : Client Event Expansion) (account : Account) (log : List Request) : Prop :=
  ∀ r ∈ log, ∃ configured, client.urls.parse (trim account.url) = some configured ∧ Permitted client.urls configured r

theorem allPermitted_iff {account : Account} {configured : Url} (h : client.urls.parse (trim account.url) = some configured)
    {log : List Request} : AllPermitted client account log ↔ ∀ r ∈ log, Permitted client.urls configured r := by
  simp [AllPermitted, h]

/-- The collection that is stored may be reached from the configured URL. -/
def AllRemembered (client : Client Event Expansion) (account : Account) (collectionUrl : Option Text) : Prop :=
  ∀ configured, client.urls.parse (trim account.url) = some configured → Remembered client configured collectionUrl

theorem triple_fetch (hlaw : Lawful client) (account : Account) {collectionUrl : Option Text}
    (hcollection : AllRemembered client account collectionUrl) (sync : Sync) :
    Triple (AllPermitted client account) (fetch client account collectionUrl sync)
      (fun result log => AllPermitted client account log ∧ AllRemembered client account result.2)
      (AllPermitted client account) := by
  unfold fetch
  split
  · exact Triple.pure fun log hlog => ⟨hlog, hcollection⟩
  · next start hstart =>
    have hfetch := @triple_fetchFrom _ _ { client with account := account, configured := start, server := sync.server }
      hlaw (reach_configured hstart) collectionUrl (hcollection start hstart) sync
    refine hfetch.mono (fun log hlog => (allPermitted_iff hstart).mp hlog) (fun result log hlog => ?_)
      fun log hlog => (allPermitted_iff hstart).mpr hlog
    refine ⟨(allPermitted_iff hstart).mpr hlog.1, fun configured h => ?_⟩
    rw [hstart] at h
    exact Option.some.inj h ▸ hlog.2

def written (u : Url) : Text :=
  u.scheme ++ "://".toList ++ (u.userinfo.map fun i => i.1 ++ ':' :: i.2.getD [] ++ ['@']).getD [] ++ u.host ++ u.path

end CalDavReach
