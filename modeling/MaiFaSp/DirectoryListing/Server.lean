import MaiFaSp.Lib.Pipes
import MaiFaSp.Lib.Scanning

/-!
# The server that lists directories

`list_files`, `send_string` and `process_client` of `task6/server/main.c` over what they ask of the
file system. The list of files grows in a buffer by `realloc`, `strncat` and `strcat`; none of them
writes past its end.
-/

namespace MaiFaSp.DirectoryListing

/-- The bytes of a C string before its NUL. -/
abbrev CString := { text : List UInt8 // 0 ∉ text }

def ascii (s : String) : List UInt8 := s.toList.map fun c => UInt8.ofNat c.toNat

/-- What the server asks for. The entries of a directory are in the order of `readdir`; there are
none when `opendir` fails. -/
structure FileSystem where
  realpath : CString → Option CString
  isDir : CString → Bool
  entries : CString → Option (List CString)

inductive Fault where
  | bufferOverflow
  | unterminated
  deriving Repr, DecidableEq

def MAX_PATH : ℕ := 16384

def slash : UInt8 := 47

def newline : UInt8 := 10

/-- `abs_ent_path`, which `snprintf` cuts off. -/
def absEntPath (rootPath name : CString) : List UInt8 :=
  (if rootPath.1 = [slash] then slash :: name.1 else rootPath.1 ++ slash :: name.1).take (MAX_PATH - 1)

/-- `strcat` into a buffer of this size. -/
def strcat (size : ℕ) (buf text : List UInt8) : Except Fault (List UInt8) :=
  if buf.length + text.length + 1 ≤ size then .ok (buf ++ text) else .error .bufferOverflow

/-- The loop of `list_files`; `alloc n` when `realloc` to `n` bytes succeeds. -/
def listLoop (alloc : ℕ → Bool) (rootPath : CString) :
    Option (List UInt8) → ℕ → List CString → Except Fault (Option (List UInt8))
  | resBuf, _, [] => .ok resBuf
  | resBuf, resSize, name :: names => do
    let absEntSize := (absEntPath rootPath name).length + 1
    let resSize := resSize + (absEntSize + 1)
    if !alloc resSize then return none
    else
      let resBuf ← strcat resSize (resBuf.getD []) (absEntPath rootPath name)
      let resBuf ← strcat resSize resBuf [newline]
      listLoop alloc rootPath (some resBuf) resSize names

def listFiles (fs : FileSystem) (alloc : ℕ → Bool) (rootPath : CString) :
    Except Fault (Option (List UInt8)) :=
  match fs.entries rootPath with
  | none => .ok none
  | some names => listLoop alloc rootPath none 0 names

/-- The text that `send_string` gets for a path. -/
def response (fs : FileSystem) (alloc : ℕ → Bool) (path : CString) : Except Fault (List UInt8) :=
  match fs.realpath path with
  | none => .ok (ascii "no such path exists")
  | some resolvedPath =>
    if path.1 ≠ resolvedPath.1 then .ok (ascii "not an absolute path")
    else if !fs.isDir resolvedPath then .ok (ascii "not a directory")
    else do
      match ← listFiles fs alloc resolvedPath with
      | none => return ascii "failed to list files"
      | some listing => return listing

/-! ### The list -/

/-- One line for each entry. -/
def listing (rootPath : CString) (names : List CString) : List UInt8 :=
  names.flatMap fun name => absEntPath rootPath name ++ [newline]

/-- Every `realloc` of the loop succeeds. -/
def allocates (alloc : ℕ → Bool) (rootPath : CString) : ℕ → List CString → Bool
  | _, [] => true
  | resSize, name :: names =>
    let resSize := resSize + ((absEntPath rootPath name).length + 1 + 1)
    alloc resSize && allocates alloc rootPath resSize names

section Lists

variable {fs : FileSystem} {alloc : ℕ → Bool} {rootPath : CString} {names : List CString}
  {resBuf : Option (List UInt8)} {resSize size : ℕ} {buf text : List UInt8}

theorem strcat_fits (h : buf.length + text.length + 1 ≤ size) : strcat size buf text = .ok (buf ++ text) :=
  if_pos h

/-- The text in the buffer is no longer than the buffer was before it grew. -/
theorem listLoop_eq (h : (resBuf.getD []).length ≤ resSize) :
    listLoop alloc rootPath resBuf resSize names =
      .ok (if allocates alloc rootPath resSize names then
        if names = [] then resBuf else some (resBuf.getD [] ++ listing rootPath names) else none) := by
  induction names generalizing resBuf resSize with
  | nil => rfl
  | cons name names ih =>
    unfold listLoop
    by_cases halloc : alloc (resSize + ((absEntPath rootPath name).length + 1 + 1)) = true
    · have hpath : strcat (resSize + ((absEntPath rootPath name).length + 1 + 1)) (resBuf.getD [])
          (absEntPath rootPath name) = .ok (resBuf.getD [] ++ absEntPath rootPath name) :=
        strcat_fits (by omega)
      have hnewline : strcat (resSize + ((absEntPath rootPath name).length + 1 + 1))
          (resBuf.getD [] ++ absEntPath rootPath name) [newline] =
            .ok (resBuf.getD [] ++ absEntPath rootPath name ++ [newline]) :=
        strcat_fits (by simp only [List.length_append, List.length_singleton]; omega)
      have hgrown : ((some (resBuf.getD [] ++ absEntPath rootPath name ++ [newline])).getD []).length ≤
          resSize + ((absEntPath rootPath name).length + 1 + 1) := by
        simp only [Option.getD_some, List.length_append, List.length_singleton]
        omega
      have hrest := ih hgrown
      simp only [halloc, Bool.not_true, Bool.false_eq_true, ↓reduceIte, hpath, bind, Except.bind,
        hnewline, hrest]
      by_cases hnames : names = []
      · simp [hnames, allocates, halloc, listing]
      · simp [hnames, allocates, halloc, listing]
    · have hfails : alloc (resSize + ((absEntPath rootPath name).length + 1 + 1)) = false := by
        simpa using halloc
      simp only [hfails, Bool.not_false, ↓reduceIte, allocates, Bool.false_and, Bool.false_eq_true]
      rfl

/-- Whatever the directory holds, no call writes past the end of the buffer, and the list has one
line for each entry, in order. There is none when memory is short, nor for no entries at all. -/
theorem listFiles_exact (fs : FileSystem) (alloc : ℕ → Bool) (rootPath : CString) :
    listFiles fs alloc rootPath = .ok ((fs.entries rootPath).bind fun names =>
      if names ≠ [] ∧ allocates alloc rootPath 0 names then some (listing rootPath names) else none) := by
  unfold listFiles
  cases fs.entries rootPath with
  | none => rfl
  | some names =>
    dsimp only [Option.bind_some]
    rw [listLoop_eq (by simp)]
    by_cases hnames : names = []
    · simp [hnames]
    · simp [hnames]

theorem zero_notMem_listing : 0 ∉ listing rootPath names := by
  unfold listing
  rw [List.mem_flatMap]
  rintro ⟨name, -, hmem⟩
  rw [List.mem_append, List.mem_singleton] at hmem
  obtain hmem | hmem := hmem
  · have hslash : (0 : UInt8) ≠ slash := by decide
    unfold absEntPath at hmem
    have hmem := List.mem_of_mem_take hmem
    split_ifs at hmem
    · simp [hslash, name.2] at hmem
    · simp [hslash, name.2, rootPath.2] at hmem
  · exact absurd hmem (by decide)

/-- Every path gets a response, without a NUL. -/
theorem exists_response (fs : FileSystem) (alloc : ℕ → Bool) (path : CString) :
    ∃ msg : CString, response fs alloc path = .ok msg.1 := by
  unfold response
  cases fs.realpath path with
  | none => exact ⟨⟨ascii "no such path exists", by decide⟩, rfl⟩
  | some resolvedPath =>
    dsimp only
    split_ifs
    · exact ⟨⟨ascii "not an absolute path", by decide⟩, rfl⟩
    · exact ⟨⟨ascii "not a directory", by decide⟩, rfl⟩
    · rw [listFiles_exact]
      cases hlisting : (fs.entries resolvedPath).bind fun names =>
          if names ≠ [] ∧ allocates alloc resolvedPath 0 names then some (listing resolvedPath names)
          else none with
      | none => exact ⟨⟨ascii "failed to list files", by decide⟩, rfl⟩
      | some text =>
        obtain ⟨names, -, htext⟩ := Option.bind_eq_some_iff.mp hlisting
        split_ifs at htext
        cases htext
        exact ⟨⟨listing resolvedPath names, zero_notMem_listing⟩, rfl⟩

theorem listing_size (hbound : ∀ n, alloc n = true → n < 2 ^ 64) (hne : names ≠ [])
    (h : allocates alloc rootPath resSize names = true) :
    resSize + (listing rootPath names).length + names.length < 2 ^ 64 := by
  induction names generalizing resSize with
  | nil => exact absurd rfl hne
  | cons name names ih =>
    simp only [allocates, Bool.and_eq_true] at h
    have hlength : (listing rootPath (name :: names)).length =
        (absEntPath rootPath name).length + 1 + (listing rootPath names).length := by
      unfold listing
      rw [List.flatMap_cons, List.length_append, List.length_append, List.length_singleton]
    rw [hlength, List.length_cons]
    by_cases hnames : names = []
    · have hlast := hbound _ h.1
      subst hnames
      simp only [listing, List.flatMap_nil, List.length_nil]
      omega
    · have hrest := ih hnames h.2
      omega

/-- The size of a response can be sent. -/
theorem response_size (hbound : ∀ n, alloc n = true → n < 2 ^ 64) {path msg : CString}
    (h : response fs alloc path = .ok msg.1) : msg.1.length + 1 < 2 ^ 64 := by
  unfold response at h
  cases hreal : fs.realpath path with
  | none =>
    simp only [hreal, Except.ok.injEq] at h
    rw [← h]
    decide
  | some resolvedPath =>
    simp only [hreal] at h
    split_ifs at h
    · rw [← Except.ok.inj h]
      decide
    · rw [← Except.ok.inj h]
      decide
    · rw [listFiles_exact] at h
      cases hlisting : (fs.entries resolvedPath).bind fun names =>
          if names ≠ [] ∧ allocates alloc resolvedPath 0 names then some (listing resolvedPath names)
          else none with
      | none =>
        rw [hlisting] at h
        rw [← Except.ok.inj h]
        decide
      | some text =>
        rw [hlisting] at h
        obtain ⟨names, -, htext⟩ := Option.bind_eq_some_iff.mp hlisting
        split_ifs at htext with hnames
        rw [← Except.ok.inj h, ← Option.some.inj htext]
        have hsize := listing_size hbound hnames.1 hnames.2
        have hpos := List.length_pos_iff.mpr hnames.1
        omega

end Lists

end MaiFaSp.DirectoryListing
