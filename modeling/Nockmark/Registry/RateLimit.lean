import Mathlib.Data.List.AList
import Mathlib.Data.List.DropRight
import Nockmark.Registry.Request

/-!
# Registry.RateLimit

The limiter of the two POST routes (`registry/src/ratelimit.rs`) and the middleware that chooses
its key (`rate_limit_mw` in `registry/src/http.rs`).

The proxy in front of the server appends the client's address to the client's own
`X-Forwarded-For`. A header value may hold bytes from `0x80` on; `to_str` then fails on the whole
value, address included.

* `rateLimitKey_ascii`, `rateLimitKey_nonAscii`: the key, for every header a client may send.
* `SameBucket`: the limiter cannot tell two requests apart.
* `bucket_unshared`: a key of fewer than 45 characters is counted for itself.
* `key_eq_address_iff`: exactly when the address is the key.
-/

namespace Nockmark
namespace Registry

/-! ### Header values -/

/-- `HeaderValue::from_bytes` -/
def isValid (b : UInt8) : Bool := 32 ≤ b && b != 127 || b == 9

def isVisibleAscii (b : UInt8) : Bool := 32 ≤ b && b < 127 || b == 9

structure HeaderValue where
  bytes : List UInt8
  valid : ∀ b ∈ bytes, isValid b

def asciiText (bs : List UInt8) : List Char := bs.map fun b => Char.ofNat b.toNat

def HeaderValue.toStr (v : HeaderValue) : Option String :=
  if v.bytes.all isVisibleAscii then some (String.ofList (asciiText v.bytes)) else none

/-- The headers of a request in order, their names in lower case. -/
abbrev HeaderMap := List (String × HeaderValue)

/-- The first value of a name. -/
def HeaderMap.get (headers : HeaderMap) (name : String) : Option HeaderValue :=
  headers.lookup name

/-- `char::is_whitespace` -/
def isWhitespace (c : Char) : Bool :=
  let n := c.toNat
  9 ≤ n && n ≤ 13 || n == 0x20 || n == 0x85 || n == 0xA0 || n == 0x1680 ||
    0x2000 ≤ n && n ≤ 0x200A || n == 0x2028 || n == 0x2029 || n == 0x202F || n == 0x205F ||
    n == 0x3000

def trim (s : List Char) : List Char := (s.dropWhile isWhitespace).rdropWhile isWhitespace

/-! ### The limiter -/

/-- Instants and durations count nanoseconds; the difference of two instants saturates at zero. -/
structure RateLimiter where
  maxPerWindow : UInt32
  window : Nat
  hits : AList fun _ : String => Nat × UInt32

def RateLimiter.new (maxPerWindow : UInt32) (window : Nat) : RateLimiter :=
  ⟨maxPerWindow, window, ∅⟩

def retain (p : Nat × UInt32 → Bool) (hits : AList fun _ : String => Nat × UInt32) :
    AList fun _ : String => Nat × UInt32 :=
  ⟨hits.entries.filter fun e => p e.2, hits.nodupKeys.sublist List.filter_sublist⟩

/-- More than 10 000 entries lose the expired ones; if that many are still fresh, all of them. -/
def RateLimiter.sweep (l : RateLimiter) (now : Nat) : AList fun _ : String => Nat × UInt32 :=
  let hits :=
    if 10000 < l.hits.keys.length then retain (fun e => now - e.1 < l.window) l.hits else l.hits
  if 10000 < hits.keys.length then ∅ else hits

/-- The key under which a hit is counted. -/
def bucket (key : String) : String :=
  if 45 < key.utf8ByteSize then String.ofList (key.toList.take 45) else key

def RateLimiter.hit (l : RateLimiter) (now : Nat) (key : String) : Except Nat Unit × RateLimiter :=
  let hits := l.sweep now
  let entry := (hits.lookup (bucket key)).getD (now, 0)
  let entry := if l.window ≤ now - entry.1 then (now, 0) else entry
  let count := entry.2 + 1
  let verdict :=
    if count ≤ l.maxPerWindow then .ok ()
    else .error (max ((l.window - (now - entry.1)) / 10 ^ 9) 1)
  (verdict, { l with hits := hits.insert (bucket key) (entry.1, count) })

/-! ### The middleware -/

def rateLimitKey (headers : HeaderMap) : String :=
  let key := do
    let v ← headers.get "x-forwarded-for"
    let s ← v.toStr
    let last ← (s.toList.splitOn ',').getLast?
    return String.ofList (trim last)
  key.getD "direct"

/-- `TOO_MANY_REQUESTS`, with its `Retry-After` header. -/
structure Refusal where
  retryAfter : String
  reply : Reply

def tooManyRequests (retryAfterSecs : Nat) : Refusal :=
  ⟨Kit.dec retryAfterSecs,
    ⟨429, .obj (.ofList [("error", .str "rate limit exceeded"),
      ("reason", .str "per-IP window on proof-verifying routes"),
      ("retry_after_secs", .num retryAfterSecs)])⟩⟩

/-- `none` hands the request on to its route. -/
def rateLimitMw (l : RateLimiter) (now : Nat) (headers : HeaderMap) :
    Option Refusal × RateLimiter :=
  match l.hit now (rateLimitKey headers) with
  | (.ok (), l) => (none, l)
  | (.error retryAfterSecs, l) => (some (tooManyRequests retryAfterSecs), l)

/-! ### The proxy -/

/-- An address as a proxy writes it: visible characters, no comma, and not the fallback's word. -/
structure Address where
  bytes : List UInt8
  visible : ∀ b ∈ bytes, 32 < b ∧ b < 127 ∧ b ≠ 44
  ne_direct : String.ofList (asciiText bytes) ≠ "direct"

def Address.text (a : Address) : String := String.ofList (asciiText a.bytes)

def IsPadding (bs : List UInt8) : Prop := ∀ b ∈ bs, b = 32 ∨ b = 9

/-- What the client sent as its own header, up to the entry that the proxy appends. -/
def before : Option HeaderValue → List UInt8
  | none => []
  | some own => own.bytes ++ [44]

/-- A request of the address `a`, with its own header `own`, as it leaves the proxy. -/
def Forwarded (own : Option HeaderValue) (a : Address) (headers : HeaderMap) : Prop :=
  ∃ v left right, headers.get "x-forwarded-for" = some v ∧ IsPadding left ∧ IsPadding right ∧
    v.bytes = before own ++ (left ++ a.bytes ++ right)

/-- The client wrote a byte that is no ASCII. -/
def NonAscii (own : Option HeaderValue) : Prop := ∃ v ∈ own, ∃ b ∈ v.bytes, 0x80 ≤ b

/-- In every state of the limiter and at every instant the two requests are answered alike, and
leave the same state. -/
def SameBucket (headers headers' : HeaderMap) : Prop :=
  ∀ l now, rateLimitMw l now headers = rateLimitMw l now headers'

/-! ### Text of header bytes -/

theorem isVisibleAscii_iff {b : UInt8} (h : isValid b) : isVisibleAscii b ↔ ¬ 0x80 ≤ b :=
  Kit.byte_forall (P := fun b => isValid b → (isVisibleAscii b ↔ ¬ 0x80 ≤ b)) (by decide +kernel)
    b h

theorem visible_ofNat {b : UInt8} (h : 32 < b ∧ b < 127 ∧ b ≠ 44) :
    Char.ofNat b.toNat ≠ ',' ∧ isWhitespace (Char.ofNat b.toNat) = false :=
  Kit.byte_forall (P := fun b => 32 < b ∧ b < 127 ∧ b ≠ 44 →
    Char.ofNat b.toNat ≠ ',' ∧ isWhitespace (Char.ofNat b.toNat) = false)
    (by decide +kernel) b h

theorem padding_ofNat {b : UInt8} (h : b = 32 ∨ b = 9) :
    Char.ofNat b.toNat ≠ ',' ∧ isWhitespace (Char.ofNat b.toNat) = true := by
  rcases h with rfl | rfl <;> decide

theorem asciiText_append (bs cs : List UInt8) :
    asciiText (bs ++ cs) = asciiText bs ++ asciiText cs := List.map_append

theorem toStr_eq_none {v : HeaderValue} (h : ∃ b ∈ v.bytes, 0x80 ≤ b) : v.toStr = none := by
  obtain ⟨b, hb, hge⟩ := h
  rw [HeaderValue.toStr, if_neg]
  intro hall
  have hvis := List.all_eq_true.mp hall b hb
  exact (isVisibleAscii_iff (v.valid b hb)).mp hvis hge

theorem toStr_eq_some {v : HeaderValue} (h : ¬ ∃ b ∈ v.bytes, 0x80 ≤ b) :
    v.toStr = some (String.ofList (asciiText v.bytes)) := by
  rw [HeaderValue.toStr, if_pos]
  rw [List.all_eq_true]
  intro b hb
  exact (isVisibleAscii_iff (v.valid b hb)).mpr fun hge => h ⟨b, hb, hge⟩

theorem trim_padded {left mid right : List Char} (hleft : ∀ c ∈ left, isWhitespace c)
    (hmid : ∀ c ∈ mid, isWhitespace c = false) (hright : ∀ c ∈ right, isWhitespace c) :
    trim (left ++ mid ++ right) = mid := by
  rw [trim, List.append_assoc, List.dropWhile_append_of_pos hleft]
  cases mid with
  | nil =>
    rw [List.nil_append, List.dropWhile_eq_nil_iff.mpr hright]
    rfl
  | cons c mid =>
    rw [List.cons_append, List.dropWhile_cons_of_neg (by simp [hmid c])]
    rw [← List.cons_append, List.rdropWhile, List.reverse_append,
      List.dropWhile_append_of_pos (by simpa using hright)]
    have hlast : ∀ d ds, (c :: mid).reverse = d :: ds → isWhitespace d = false := by
      intro d ds h
      exact hmid d (List.mem_reverse.mp (h ▸ List.mem_cons_self))
    cases h : (c :: mid).reverse with
    | nil => simp at h
    | cons d ds =>
      rw [List.dropWhile_cons_of_neg (by simp [hlast d ds h]), ← h, List.reverse_reverse]

/-- The last entry of a header is what follows its last comma. -/
theorem getLast?_splitOn {entry : List Char} (h : ',' ∉ entry) (cs : List Char) :
    ((cs ++ ',' :: entry).splitOn ',').getLast? = some entry := by
  rw [List.splitOn_append_cons_self, List.splitOn_eq_singleton h]
  simp

/-! ### The key -/

section Key

variable {own own' : Option HeaderValue} {a : Address} {headers headers' : HeaderMap}

theorem asciiText_visible (a : Address) :
    ∀ c ∈ asciiText a.bytes, c ≠ ',' ∧ isWhitespace c = false := by
  intro c hc
  obtain ⟨b, hb, rfl⟩ := List.mem_map.mp hc
  exact visible_ofNat (a.visible b hb)

theorem asciiText_padding {bs : List UInt8} (h : IsPadding bs) :
    ∀ c ∈ asciiText bs, c ≠ ',' ∧ isWhitespace c = true := by
  intro c hc
  obtain ⟨b, hb, rfl⟩ := List.mem_map.mp hc
  exact padding_ofNat (h b hb)

/-- Whatever the client wrote, the last entry is the address with its padding. -/
theorem last_entry (own : Option HeaderValue) {entry : List UInt8} (h : ',' ∉ asciiText entry) :
    ((asciiText (before own ++ entry)).splitOn ',').getLast? = some (asciiText entry) := by
  cases own with
  | none => simp [before, List.splitOn_eq_singleton h]
  | some own =>
    have : asciiText (before (some own) ++ entry) =
        asciiText own.bytes ++ ',' :: asciiText entry := by
      simp only [before, asciiText, List.map_append, List.append_assoc]
      rfl
    rw [this, getLast?_splitOn h]

/-- A byte from `0x80` on makes `to_str` fail, and the request counts as a direct one. -/
theorem rateLimitKey_nonAscii (hf : Forwarded own a headers) (h : NonAscii own) :
    rateLimitKey headers = "direct" := by
  obtain ⟨v, left, right, hget, -, -, hv⟩ := hf
  obtain ⟨w, rfl, b, hb, hge⟩ := h
  have hnone : v.toStr = none := toStr_eq_none ⟨b, by simp [hv, before, hb], hge⟩
  simp [rateLimitKey, hget, hnone]

theorem low_of_ascii (h : ¬ NonAscii own) : ∀ b ∈ before own, ¬ 0x80 ≤ b := by
  intro b hb hge
  cases own with
  | none => simp [before] at hb
  | some own =>
    rcases List.mem_append.mp hb with hb | hb
    · exact h ⟨own, rfl, b, hb, hge⟩
    · rw [List.mem_singleton.mp hb] at hge
      exact absurd hge (by decide)

theorem low_of_visible {b : UInt8} (h : b < 127) : ¬ 0x80 ≤ b := by
  rw [UInt8.lt_iff_toNat_lt] at h
  rw [UInt8.le_iff_toNat_le]
  exact Nat.not_le.mpr (lt_trans h (by decide))

theorem low_of_padding {b : UInt8} (h : b = 32 ∨ b = 9) : ¬ 0x80 ≤ b := by
  rcases h with rfl | rfl <;> decide

theorem rateLimitKey_ascii (hf : Forwarded own a headers) (h : ¬ NonAscii own) :
    rateLimitKey headers = a.text := by
  obtain ⟨v, left, right, hget, hleft, hright, hv⟩ := hf
  have hlow : ∀ b ∈ v.bytes, ¬ 0x80 ≤ b := by
    intro b hb
    rw [hv, List.mem_append, List.mem_append, List.mem_append] at hb
    rcases hb with hb | (hb | hb) | hb
    · exact low_of_ascii h b hb
    · exact low_of_padding (hleft b hb)
    · exact low_of_visible (a.visible b hb).2.1
    · exact low_of_padding (hright b hb)
  have hsome : v.toStr = some (String.ofList (asciiText v.bytes)) :=
    toStr_eq_some fun ⟨b, hb, hge⟩ => hlow b hb hge
  have hentry : asciiText (left ++ a.bytes ++ right) =
      asciiText left ++ asciiText a.bytes ++ asciiText right := by
    simp only [asciiText_append]
  have hcomma : ',' ∉ asciiText (left ++ a.bytes ++ right) := by
    rw [hentry, List.mem_append, List.mem_append]
    rintro ((hc | hc) | hc)
    · exact (asciiText_padding hleft _ hc).1 rfl
    · exact (asciiText_visible a _ hc).1 rfl
    · exact (asciiText_padding hright _ hc).1 rfl
  have hlast := last_entry own hcomma
  have htrim := trim_padded (fun c hc => (asciiText_padding hleft c hc).2)
    (fun c hc => (asciiText_visible a c hc).2) (fun c hc => (asciiText_padding hright c hc).2)
  rw [← hv, hentry] at hlast
  simp only [rateLimitKey, hget, hsome, Option.bind_eq_bind, Option.bind_some,
    String.toList_ofList, hlast, htrim]
  rfl

theorem address_is_key_iff (hf : Forwarded own a headers) :
    rateLimitKey headers = a.text ↔ ¬ NonAscii own := by
  constructor
  · intro hkey h
    rw [rateLimitKey_nonAscii hf h] at hkey
    exact a.ne_direct hkey.symm
  · exact rateLimitKey_ascii hf

end Key

/-! ### Buckets -/

theorem hit_congr {key key' : String} (h : bucket key = bucket key') (l : RateLimiter) (now : Nat) :
    l.hit now key = l.hit now key' := by
  rw [RateLimiter.hit, RateLimiter.hit, h]

theorem rateLimitMw_hits (l : RateLimiter) (now : Nat) (headers : HeaderMap) :
    (rateLimitMw l now headers).2 = (l.hit now (rateLimitKey headers)).2 := by
  rw [rateLimitMw]
  split <;> simp [*]

theorem sameBucket_iff {headers headers' : HeaderMap} : SameBucket headers headers' ↔
    bucket (rateLimitKey headers) = bucket (rateLimitKey headers') := by
  constructor
  · -- an empty limiter shows which entry a request is counted in
    intro h
    have hmem : ∀ headers, (rateLimitMw (.new 0 0) 0 headers).2.hits.keys =
        [bucket (rateLimitKey headers)] := by
      intro headers
      rw [rateLimitMw_hits]
      rfl
    have := hmem headers
    rw [h, hmem headers'] at this
    exact (List.singleton_inj.mp this).symm
  · intro h l now
    rw [rateLimitMw, rateLimitMw, hit_congr h]

theorem bucket_of_short {key : String} (h : key.toList.length ≤ 45) : bucket key = key := by
  unfold bucket
  split
  · rw [List.take_of_length_le h, String.ofList_toList]
  · rfl

/-- A key of fewer than 45 characters has its counter for itself. -/
theorem bucket_unshared {key other : String} (h : key.toList.length < 45)
    (hb : bucket other = bucket key) : other = key := by
  rw [bucket_of_short (Nat.le_of_lt h)] at hb
  unfold bucket at hb
  split at hb
  · -- the cut left fewer than 45 characters, so it cut nothing
    have htake : other.toList.take 45 = key.toList := by rw [← hb, String.toList_ofList]
    have hlen := congrArg List.length htake
    rw [List.length_take] at hlen
    rw [List.take_of_length_le (by omega)] at htake
    exact String.toList_inj.mp htake
  · exact hb

/-- Only the word itself is counted as direct. -/
theorem bucket_eq_direct {key : String} : bucket key = "direct" ↔ key = "direct" := by
  have hdirect : bucket "direct" = "direct" := rfl
  constructor
  · intro h
    exact bucket_unshared (by decide) (h.trans hdirect.symm)
  · rintro rfl
    exact hdirect

/-- However keys are sprayed, a hit leaves at most 10 001 entries. -/
theorem hit_tracked (l : RateLimiter) (now : Nat) (key : String) :
    (l.hit now key).2.hits.keys.length ≤ 10001 := by
  have hsweep : (l.sweep now).keys.length ≤ 10000 := by
    simp only [RateLimiter.sweep]
    generalize (if 10000 < l.hits.keys.length then _ else l.hits) = hits
    split
    · rw [AList.keys_empty]
      exact Nat.zero_le _
    · omega
  simp only [RateLimiter.hit, AList.keys_insert, List.length_cons]
  have := (List.erase_sublist (a := bucket key) (l := (l.sweep now).keys)).length_le
  omega

/-- For every address and every header the client may have sent: the key is the address if and
only if the client wrote ASCII; and two requests of one address count in one bucket if and only if
both clients' headers are ASCII or neither is. -/
theorem key_eq_address_iff {own : Option HeaderValue} {a : Address} {headers : HeaderMap}
    (hf : Forwarded own a headers) :
    (rateLimitKey headers = a.text ↔ ¬ NonAscii own) ∧
      ∀ (own' : Option HeaderValue) (headers' : HeaderMap), Forwarded own' a headers' →
        (SameBucket headers headers' ↔ (NonAscii own ↔ NonAscii own')) := by
  refine ⟨address_is_key_iff hf, ?_⟩
  intro own' headers' hf'
  rw [sameBucket_iff]
  have hne : bucket a.text ≠ "direct" := fun h => a.ne_direct (bucket_eq_direct.mp h)
  have hdirect : bucket "direct" = "direct" := bucket_eq_direct.mpr rfl
  by_cases h : NonAscii own <;> by_cases h' : NonAscii own'
  · simp [rateLimitKey_nonAscii hf h, rateLimitKey_nonAscii hf' h', h, h']
  · simp [rateLimitKey_nonAscii hf h, rateLimitKey_ascii hf' h', h, h', hdirect, hne.symm]
  · simp [rateLimitKey_ascii hf h, rateLimitKey_nonAscii hf' h', h, h', hdirect, hne]
  · simp [rateLimitKey_ascii hf h, rateLimitKey_ascii hf' h', h, h']

/-! ### Two clients behind one proxy -/

/-- `203.0.113.7` -/
def sampleAddress : Address where
  bytes := [50, 48, 51, 46, 48, 46, 49, 49, 51, 46, 55]
  visible := by decide +kernel
  ne_direct := by decide +kernel

/-- A header of the client's, and the address appended after a comma and a space. -/
def appended (own : HeaderValue) : HeaderMap :=
  [("x-forwarded-for",
    ⟨own.bytes ++ ([44, 32] ++ sampleAddress.bytes),
      List.forall_mem_append.mpr ⟨own.valid, by decide +kernel⟩⟩)]

theorem forwarded_appended (own : HeaderValue) :
    Forwarded (some own) sampleAddress (appended own) :=
  ⟨_, [32], [], rfl, by simp [IsPadding], by simp [IsPadding], by simp [before]⟩

/-- `10.0.0.9`, as a client may pretend. -/
def spoofed : HeaderValue := ⟨[49, 48, 46, 48, 46, 48, 46, 57], by decide +kernel⟩

/-- One byte that is no ASCII. -/
def highByte : HeaderValue := ⟨[0xFF], by decide +kernel⟩

theorem key_eq_address_iff_spoofed : rateLimitKey (appended spoofed) = "203.0.113.7" :=
  (key_eq_address_iff (forwarded_appended spoofed)).1.mpr (by simp [NonAscii, spoofed])

/-- With one byte from `0x80` on, a client leaves its own bucket for the one of direct requests. -/
theorem highByte_counts_as_direct :
    ¬ ∀ (own : Option HeaderValue) (a : Address) (headers : HeaderMap), Forwarded own a headers →
      rateLimitKey headers = a.text := by
  intro h
  have hkey := h _ _ _ (forwarded_appended highByte)
  have hdirect : rateLimitKey (appended highByte) = "direct" := rfl
  exact sampleAddress.ne_direct (hkey.symm.trans hdirect)

end Registry
end Nockmark
