import RemarkableServer.InternalAddresses

/-!
# Feed and article fetches

`feeds.rs`: the URLs a fetch is allowed to ask for, first and after each redirect, and the addresses
it can connect to on the way: a literal one as it is, and those that the guarded resolver leaves of
a lookup's answer. Lookups may answer differently every time.
-/
namespace FeedFetch

open RustText InternalAddresses

/-- A parsed URL, with its text. -/
structure Url where
  text : Text
  scheme : Text
  host : Option Host
  deriving DecidableEq, Repr

def maxFetchRedirects : Nat := 10

def refusing (url : Url) (reason : Text) : Text := "refusing to fetch ".toList ++ url.text ++ ": ".toList ++ reason

def checkFetchUrl (url : Url) (allowInternal : Bool) : Except Text Unit :=
  if url.scheme != "http".toList && url.scheme != "https".toList then
    .error (refusing url "only http and https URLs".toList)
  else
    match url.host with
    | none => .error (refusing url "no host".toList)
    | some (.domain _) => .ok ()
    | some (.ip ip) =>
      if isInternalIp ip && !allowInternal then .error (refusing url "it names an internal address".toList) else .ok ()

/-- What the outside says to a request: the addresses its name has then, and where it is redirected to, if it is. -/
structure Hop where
  found : Except Text (List IpAddr)
  redirect : Option Url

/-- A request of a fetch, with what the lookup of its name finds. -/
structure Request where
  url : Url
  found : Except Text (List IpAddr)

/-- The addresses that the host of a request has: a literal one is not looked up. -/
def Request.asked (r : Request) : List IpAddr :=
  match r.url.host with
  | none => []
  | some (.ip ip) => [ip]
  | some (.domain _) => r.found.toOption.getD []

/-- The addresses that a request may connect to. Names are resolved by the guarded resolver, which trusts no host. -/
def Request.connects (allowInternal : Bool) (r : Request) : List IpAddr :=
  match r.url.host with
  | some (.domain name) =>
    if allowInternal then r.asked else (resolve [] name r.found).toOption.getD []
  | _ => r.asked

/-- The requests of a fetch whose URL was allowed, after a number of requests: it goes on while it can connect, is
redirected, and the redirect policy follows. -/
def requestsFrom (allowInternal : Bool) : Nat → Url → List Hop → List Request
  | _, _, [] => []
  | previous, url, hop :: rest =>
    let request : Request := ⟨url, hop.found⟩
    request ::
      match (request.connects allowInternal).isEmpty, hop.redirect with
      | false, some next =>
        if previous + 1 ≥ maxFetchRedirects then []
        else if (checkFetchUrl next allowInternal).isOk then requestsFrom allowInternal (previous + 1) next rest
        else []
      | _, _ => []

structure FeedManager where
  allowInternal : Bool

/-- `FeedManager::new`: only the tests reach internal hosts. -/
def FeedManager.new : FeedManager := ⟨false⟩

/-- The requests of `get(url)?.send()`, for a text that was parsed. -/
def FeedManager.get (m : FeedManager) (url : Option Url) (hops : List Hop) : List Request :=
  match url with
  | none => []
  | some url => if (checkFetchUrl url m.allowInternal).isOk then requestsFrom m.allowInternal 0 url hops else []

/-! ## The addresses of a fetch -/

variable {url : Url} {r : Request}

/-- A literal address was checked. -/
theorem literal_of_check {ip : IpAddr} (h : (checkFetchUrl url false).isOk = true) (hhost : url.host = some (.ip ip)) :
    isInternalIp ip = false := by
  simp only [checkFetchUrl, hhost] at h
  split at h
  · cases h
  · cases hinternal : isInternalIp ip with
    | false => rfl
    | true => simp [hinternal, Except.isOk, Except.toBool] at h

/-- A request connects to the addresses of its host that are not internal. -/
theorem connects_eq (h : (checkFetchUrl r.url false).isOk = true) :
    r.connects false = r.asked.filter (!isInternalIp ·) := by
  simp only [Request.connects, Request.asked]
  cases hhost : r.url.host with
  | none => rfl
  | some host =>
    cases host with
    | ip ip => simp [literal_of_check h hhost]
    | domain name =>
      cases hfound : r.found with
      | error e => rfl
      | ok found =>
        simp only [resolve, List.map_nil, List.contains_nil, Bool.false_eq_true, if_false]
        split
        next hempty => simpa [Except.toOption] using hempty
        · simp [Except.toOption]

theorem checked_requests {previous : Nat} {hops : List Hop} (h : (checkFetchUrl url false).isOk = true)
    (hr : r ∈ requestsFrom false previous url hops) : (checkFetchUrl r.url false).isOk = true := by
  induction hops generalizing previous url with
  | nil => simp [requestsFrom] at hr
  | cons hop rest ih =>
    rcases List.mem_cons.mp hr with rfl | hr
    · exact h
    · split at hr
      · split at hr
        · simp at hr
        · split at hr
          next hnext => exact ih hnext hr
          · simp at hr
      · simp at hr

/-- Every address that a fetch can connect to is public, if and only if no address that the hosts it asks for have embeds
an internal one in a form that is not looked into. -/
theorem connects_public_iff (url : Option Url) (hops : List Hop) :
    (∀ r ∈ FeedManager.new.get url hops, ∀ ip ∈ r.connects false, Public ip) ↔
      ∀ r ∈ FeedManager.new.get url hops, ∀ ip ∈ r.asked, smuggles ip = false := by
  have hconnects : ∀ r ∈ FeedManager.new.get url hops, r.connects false = r.asked.filter (!isInternalIp ·) := by
    intro r hr
    cases url with
    | none => simp [FeedManager.get] at hr
    | some url =>
      simp only [FeedManager.get] at hr
      split at hr
      next hcheck => exact connects_eq (checked_requests hcheck hr)
      · simp at hr
  constructor
  · intro h r hr ip hip
    cases hinternal : isInternalIp ip with
    | false =>
      have hmem : ip ∈ r.connects false := by
        rw [hconnects r hr]
        simp [hip, hinternal]
      exact ((public_iff ip).mp (h r hr ip hmem)).2
    | true =>
      cases ip with
      | v4 ip => rfl
      | v6 ip =>
        simp only [isInternalIp] at hinternal
        simp [smuggles, Ipv6Addr.smuggles, hinternal]
  · intro h r hr ip hip
    rw [hconnects r hr] at hip
    obtain ⟨hasked, hpublic⟩ := List.mem_filter.mp hip
    exact (public_iff ip).mpr ⟨by simpa using hpublic, h r hr ip hasked⟩

/-- The 6to4 address of 127.0.0.1. -/
def loopbackOver6to4 : IpAddr := .v6 ⟨0x2002, 0x7f00, 1, 0, 0, 0, 0, 1⟩

/-- A feed names a host whose lookup answers with it: the fetch connects there. -/
theorem loopback_reached : ∃ r ∈ FeedManager.new.get
      (some ⟨"http://feed.example/".toList, "http".toList, some (.domain "feed.example".toList)⟩)
      [⟨.ok [loopbackOver6to4], none⟩],
    loopbackOver6to4 ∈ r.connects false ∧ ¬Public loopbackOver6to4 := by
  refine ⟨_, List.mem_cons_self, by decide, fun h => ?_⟩
  have hsmuggles := ((public_iff loopbackOver6to4).mp h).2
  revert hsmuggles
  decide

end FeedFetch
