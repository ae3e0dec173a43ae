import HttpLws.Lib.CharEncoding
import HttpLws.Thread

/-!
# Addresses and mounts

The thread object narrows the actor's addresses when it is made and passes them to
the library: the API address as a mount, the root of the files and the error page.
Each narrow buffer has as many bytes as the address has TCHARs, and the length that
is kept with it counts TCHARs and is stored in a byte. So an address arrives whole
only when each of its characters takes one byte.
-/

namespace HttpLws

/-- How the C library narrows wide characters in the current locale. -/
structure Locale extends CharEncoding TCHAR where
  /-- Only the NUL has a zero byte. -/
  zero_not_mem : ∀ u bytes, u ≠ 0 → encode u = some bytes → 0 ∉ bytes
  /-- What is left of a string that does not fit into a buffer. -/
  truncate : FString → ℕ → List UInt8
  /-- It leaves room for the terminator. -/
  length_truncate : ∀ s size, (truncate s size).length ≤ size - 1

/-- The locale in which a C program starts: the characters up to 255, in one byte each. -/
def Locale.c : Locale where
  encode u := if u.toNat < 256 then some [UInt8.ofNat u.toNat] else none
  encode_ne_nil u bytes h := by
    split_ifs at h
    rw [← Option.some.inj h]
    exact List.cons_ne_nil _ _
  zero_not_mem u bytes hu h := by
    split_ifs at h with hlt
    rw [← Option.some.inj h, List.mem_singleton]
    intro hzero
    apply hu
    apply UInt16.toNat_inj.mp
    have hnat := congrArg UInt8.toNat hzero
    simp only [UInt8.toNat_ofNat'] at hnat
    simp at hnat ⊢
    omega
  truncate _ _ := []
  length_truncate _ _ := Nat.zero_le _

variable (loc : Locale)

/-- `wcstombs_s` with `_TRUNCATE` into a buffer of `dataSize` bytes: the C string that it
leaves there. It is empty if a character cannot be converted. -/
def wcstombsS (dataSize : ℕ) (sourceChars : FString) : List UInt8 :=
  match loc.encodeAll sourceChars with
  | none => []
  | some bytes => if bytes.length < dataSize then bytes else loc.truncate sourceChars dataSize

/-- `FPaths::MakePlatformFilename` on Windows; 47 is the slash and 92 the backslash. -/
def makePlatformFilename (s : FString) : FString := s.map fun u => if u = 47 then 92 else u

/-- `FHTTP_Thread_LibWebSocket::ConvertAddress` -/
def convertAddress (address : FString) (bMakePlatformFileName : Bool) : LwsPoints :=
  let address := if bMakePlatformFileName then makePlatformFilename address else address
  let sourceChars := address.cString
  let dataSize := sourceChars.len + 1
  ⟨wcstombsS loc dataSize sourceChars, address.len⟩

/-- The addresses that the actor has been given. -/
structure ServerPaths where
  /-- `Server_Path_Root` -/
  serverPathRoot : FString
  /-- `Server_Path_404` -/
  serverPath404 : FString
  /-- `API_URI` -/
  apiUri : FString

/-- The addresses of `FHTTP_Thread_LibWebSocket`. -/
structure ThreadAddresses where
  /-- `Origin` -/
  origin : LwsPoints
  /-- `MountPoint` -/
  mountPoint : LwsPoints
  /-- `Page_Default` -/
  pageDefault : LwsPoints
  /-- `Page_Error` -/
  pageError : LwsPoints
  /-- `ApiUri` -/
  apiUri : LwsPoints

/-- The address of the error page, with its leading slash. -/
def ServerPaths.errorString (paths : ServerPaths) : FString :=
  if paths.serverPath404 = [] then [] else text "/" ++ paths.serverPath404

/-- A pointer that is null. -/
def LwsPoints.null : LwsPoints := ⟨[], 0⟩

/-- The constructor of the thread object, as far as it converts addresses. -/
def ThreadAddresses.new (paths : ServerPaths) : ThreadAddresses where
  mountPoint := convertAddress loc (text "/") false
  pageDefault := convertAddress loc (text "index.html") false
  origin :=
    if paths.serverPathRoot = [] then .null else convertAddress loc paths.serverPathRoot true
  pageError :=
    if paths.serverPath404 = [] then .null else convertAddress loc paths.errorString false
  apiUri := if paths.apiUri = [] then .null else convertAddress loc paths.apiUri false

/-- `lws_mount_protocols`, as far as the plugin names them. -/
inductive LwsMountProtocols
  | lwsmproFile | lwsmproCallback
  deriving DecidableEq

/-- `lws_http_mount`: the fields that are not left at zero. A null pointer counts as the
empty string. -/
structure LwsHttpMount where
  /-- `mountpoint` -/
  mountpoint : List UInt8
  /-- `mountpoint_len`, an unsigned char. -/
  mountpointLen : ℕ
  /-- `origin` -/
  origin : List UInt8
  /-- `def` -/
  defaultTarget : List UInt8
  /-- `protocol` -/
  protocol : List UInt8
  /-- `origin_protocol` -/
  originProtocol : LwsMountProtocols

/-- `FHTTP_Thread_LibWebSocket::Init_DynamicMount` -/
def ThreadAddresses.initDynamicMount (self : ThreadAddresses) : LwsHttpMount where
  mountpoint := self.apiUri.data
  mountpointLen := self.apiUri.lenght % 2 ^ 8
  origin := []
  defaultTarget := []
  protocol := ascii "http"
  originProtocol := .lwsmproCallback

/-- `FHTTP_Thread_LibWebSocket::Init_StaticMount`; its `mount_next` is the dynamic mount. -/
def ThreadAddresses.initStaticMount (self : ThreadAddresses) : LwsHttpMount where
  mountpoint := self.mountPoint.data
  mountpointLen := self.mountPoint.lenght % 2 ^ 8
  origin := self.origin.data
  defaultTarget := self.pageDefault.data
  protocol := []
  originProtocol := .lwsmproFile

/-- `strlen` -/
def strlen (s : List UInt8) : ℕ := (s.takeWhile (· ≠ 0)).length

/-- What the library is given for the actor's addresses is whole. -/
structure AddressesWhole (paths : ServerPaths) (addresses : ThreadAddresses) : Prop where
  /-- The length of the API mount is that of its mountpoint. -/
  mountpointLen : addresses.initDynamicMount.mountpointLen =
    strlen addresses.initDynamicMount.mountpoint
  /-- The mountpoint is the encoding of the API address. -/
  mountpoint : loc.encodeAll paths.apiUri = some addresses.initDynamicMount.mountpoint
  /-- The origin of the files is the encoding of the root. -/
  origin : loc.encodeAll (makePlatformFilename paths.serverPathRoot) =
    some addresses.initStaticMount.origin
  /-- The error page is the encoding of its address. -/
  pageError : loc.encodeAll paths.errorString = some addresses.pageError.data

/-- The string has no NUL, and each of its characters takes one byte. -/
def OneByteEach (s : FString) : Prop := ∀ u ∈ s, u ≠ 0 ∧ loc.OneByte u

/-- The addresses have one byte for each character, and the API one has fewer than 256. -/
structure AddressesFit (paths : ServerPaths) : Prop where
  /-- The API address fits its buffer. -/
  apiUri : OneByteEach loc paths.apiUri
  /-- Its length fits a byte. -/
  apiUriLen : paths.apiUri.len < 2 ^ 8
  /-- The root fits its buffer. -/
  root : OneByteEach loc (makePlatformFilename paths.serverPathRoot)
  /-- The error page's address fits its buffer. -/
  page404 : OneByteEach loc paths.errorString

/-- At most `dataSize - 1` bytes are left in the buffer. -/
theorem length_wcstombsS_le (dataSize : ℕ) (s : FString) :
    (wcstombsS loc dataSize s).length ≤ dataSize - 1 := by
  unfold wcstombsS
  split
  · exact Nat.zero_le _
  · split_ifs with hfits
    · omega
    · exact loc.length_truncate s dataSize

/-- A string with one byte for each character is narrowed whole. -/
theorem convertAddress_of_oneByteEach {s : FString} (h : OneByteEach loc s) :
    loc.encodeAll s = some (convertAddress loc s false).data ∧
      strlen (convertAddress loc s false).data = s.len := by
  have hone : ∀ u ∈ s, loc.OneByte u := fun u hu => (h u hu).2
  have hself : s.cString = s := cString_of_zero_not_mem fun hzero => (h 0 hzero).1 rfl
  obtain ⟨bytes, hbytes⟩ := loc.exists_encodeAll hone
  have hlen := (loc.length_eq_iff hbytes).mpr hone
  have hfits : bytes.length < s.len + 1 := by
    rw [hlen]
    exact Nat.lt_succ_self _
  have hdata : (convertAddress loc s false).data = bytes := by
    simp only [convertAddress, wcstombsS, Bool.false_eq_true, if_false, hself, hbytes,
      if_pos hfits]
  have hzero : 0 ∉ bytes := loc.not_mem_encodeAll
    (fun u hu b hb => loc.zero_not_mem u b (h u hu).1 hb) hbytes
  rw [hdata]
  refine ⟨hbytes, ?_⟩
  rw [strlen, Terminator.takeWhile_eq_self hzero]
  exact hlen

/-- **Narrowing an address.** The buffer holds the encoding of the whole address exactly
when the address has no NUL and each of its characters takes one byte. -/
theorem convertAddress_whole_iff (s : FString) :
    loc.encodeAll s = some (convertAddress loc s false).data ↔ OneByteEach loc s := by
  constructor
  · intro hwhole
    have hdata : (convertAddress loc s false).data.length ≤ s.cString.length := by
      have h := length_wcstombsS_le loc (s.cString.len + 1) s.cString
      simpa [convertAddress, FString.len] using h
    have hcString : s.cString.length ≤ s.length := (List.takeWhile_sublist _).length_le
    have hbytes := loc.length_le hwhole
    have hone := (loc.length_eq_iff hwhole).mp (by omega)
    have hself : s.cString = s :=
      (List.takeWhile_sublist _).eq_of_length (by change s.cString.length = s.length; omega)
    intro u hu
    refine ⟨?_, hone u hu⟩
    rintro rfl
    rw [← hself] at hu
    exact zero_not_mem_cString s hu
  · exact fun h => (convertAddress_of_oneByteEach loc h).1

/-- A path is first brought into the platform's form. -/
theorem convertAddress_true (s : FString) :
    convertAddress loc s true = convertAddress loc (makePlatformFilename s) false := by
  simp [convertAddress]

/-- A null pointer stands for the empty address, which is converted to nothing. -/
theorem null_data (s : FString) (h : s = []) :
    LwsPoints.null.data = (convertAddress loc s false).data := by
  subst h
  simp [convertAddress, LwsPoints.null, wcstombsS, FString.cString, FString.len,
    CharEncoding.encodeAll]

/-- The API address of a new thread object, the null pointer included. -/
theorem new_apiUri_data (paths : ServerPaths) :
    (ThreadAddresses.new loc paths).apiUri.data = (convertAddress loc paths.apiUri false).data := by
  simp only [ThreadAddresses.new]
  split_ifs with hempty
  · exact null_data loc _ hempty
  · rfl

/-- The length that is declared for the API mount. -/
theorem new_mountpointLen (paths : ServerPaths) :
    (ThreadAddresses.new loc paths).initDynamicMount.mountpointLen = paths.apiUri.len % 2 ^ 8 := by
  simp only [ThreadAddresses.initDynamicMount, ThreadAddresses.new]
  split_ifs with hempty
  · rw [hempty]
    rfl
  · rfl

/-- The root of the files, the null pointer included. -/
theorem new_origin (paths : ServerPaths) :
    (ThreadAddresses.new loc paths).initStaticMount.origin =
      (convertAddress loc (makePlatformFilename paths.serverPathRoot) false).data := by
  simp only [ThreadAddresses.initStaticMount, ThreadAddresses.new]
  split_ifs with hempty
  · apply null_data
    rw [hempty]
    rfl
  · rw [convertAddress_true]

/-- The address of the error page, the null pointer included. -/
theorem new_pageError (paths : ServerPaths) :
    (ThreadAddresses.new loc paths).pageError.data =
      (convertAddress loc paths.errorString false).data := by
  simp only [ThreadAddresses.new]
  split_ifs with hempty
  · apply null_data
    rw [ServerPaths.errorString, if_pos hempty]
  · rfl

/-- **The addresses given to the library.** They are whole, and the API mount's length is
that of its mountpoint, exactly when every character of every address takes one byte
and the API address has fewer than 256 characters. -/
theorem addresses_whole_iff (paths : ServerPaths) :
    AddressesWhole loc paths (.new loc paths) ↔ AddressesFit loc paths := by
  have hapi : (ThreadAddresses.new loc paths).initDynamicMount.mountpoint =
      (convertAddress loc paths.apiUri false).data := new_apiUri_data loc paths
  constructor
  · rintro ⟨hcount, hmount, horigin, hpage⟩
    rw [hapi, convertAddress_whole_iff] at hmount
    rw [new_origin, convertAddress_whole_iff] at horigin
    rw [new_pageError, convertAddress_whole_iff] at hpage
    rw [hapi, new_mountpointLen, (convertAddress_of_oneByteEach loc hmount).2] at hcount
    refine ⟨hmount, ?_, horigin, hpage⟩
    rw [← hcount]
    exact Nat.mod_lt _ (by decide)
  · rintro ⟨hmount, hbound, horigin, hpage⟩
    refine ⟨?_, ?_, ?_, ?_⟩
    · rw [hapi, new_mountpointLen, (convertAddress_of_oneByteEach loc hmount).2,
        Nat.mod_eq_of_lt hbound]
    · rw [hapi, convertAddress_whole_iff]
      exact hmount
    · rw [new_origin, convertAddress_whole_iff]
      exact horigin
    · rw [new_pageError, convertAddress_whole_iff]
      exact hpage

/-- In the locale in which a C program starts, an address with a character past 255 is
emptied, and the mount declares one byte for it. An address of 256 letters is declared with
length zero. -/
theorem wide_and_long_addresses_not_whole :
    ¬AddressesWhole .c ⟨[], [], text "я"⟩ (.new .c ⟨[], [], text "я"⟩) ∧
      ¬AddressesWhole .c ⟨[], [], List.replicate 256 97⟩
        (.new .c ⟨[], [], List.replicate 256 97⟩) := by
  constructor
  · exact fun hwhole => absurd hwhole.mountpointLen (by decide)
  · exact fun hwhole => absurd hwhole.mountpointLen (by decide +kernel)

end HttpLws
