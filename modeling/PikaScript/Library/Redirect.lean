import PikaScript.Lib.Tokens
import PikaScript.Lib.Word
import PikaScript.Library.Archive
import PikaScript.VM.Operator

/-! Redirecting an import to the module it is in.

`import a.b.c` may name a class `c` of the module `a.b`, so the longest front of the dotted
name that is a module is looked for, in the library or among the files. A search that finds
none leaves the loop with the first token in its hand and returns it. -/
namespace PikaScript

/-! ### The code -/

/-- `strCountSign`, an `int32_t`. -/
def strCountSign (str : CString) (sign : BitVec 8) : Int := s32 (str.count sign)

/-- What `strPopLastToken` leaves: it looks for the sign from the end on, in an `int32_t`. -/
def strPopLastToken (str : CString) (sign : BitVec 8) : CString :=
  let head := (str.take (s32 str.length).toNat).rdropWhile (· ≠ sign)
  if head = [] then str else head.dropLast

/-- The dots of a name, in a `size_t`. -/
def tokenNum (moduleName : CString) : Nat := (strCountSign moduleName charDot % 2 ^ 64).toNat

namespace LibObj
variable (self : LibObj)

/-- `LibObj_getModule`. -/
def getModule (moduleName : CString) : Option LibModule :=
  self.find? fun module => module.name = moduleName

/-- There is a module of this name. -/
def isModule (moduleName : CString) : Bool := (self.getModule moduleName).isSome

/-- The loop of `LibObj_redirectModule`. -/
def redirectLoop : Nat → CString → CString
  | 0, moduleNameNew => moduleNameNew
  | rounds + 1, moduleNameNew =>
    if self.isModule moduleNameNew then moduleNameNew
    else redirectLoop rounds (strPopLastToken moduleNameNew charDot)

/-- `LibObj_redirectModule`. -/
def redirectModule (moduleName : CString) : Option CString :=
  if tokenNum moduleName = 0 then none
  else if self.isModule moduleName then some moduleName
  else some (self.redirectLoop (tokenNum moduleName + 1) moduleName)

end LibObj

/-- `PIKA_MODULE_TYPE`. -/
inductive PikaModuleType where
  | unknown
  | py
  | pyi
  | pyo
deriving DecidableEq, Repr

/-- `_checkModuleType`, of the paths that can be opened. -/
def checkModuleType (files : CString → Bool) (modulePath : CString) : PikaModuleType :=
  -- `.py.o` before `.py` before `.pyi`
  if files (modulePath ++ [0x2e, 0x70, 0x79, 0x2e, 0x6f]) then .pyo
  else if files (modulePath ++ [0x2e, 0x70, 0x79]) then .py
  else if files (modulePath ++ [0x2e, 0x70, 0x79, 0x69]) then .pyi
  else .unknown

/-- The loop of `_redirectModuleFromFs`, which tries the path and returns the name. -/
def redirectFsLoop (files : CString → Bool) : Nat → CString → CString → CString
  | 0, _, moduleNameNew => moduleNameNew
  | rounds + 1, moduleTry, moduleNameNew =>
    if checkModuleType files moduleTry ≠ .unknown then moduleNameNew
    else redirectFsLoop files rounds (strPopLastToken moduleTry charSlash)
      (strPopLastToken moduleNameNew charDot)

/-- `_redirectModuleFromFs`. -/
def redirectModuleFromFs (files : CString → Bool) (modulePath moduleName : CString) :
    Option CString :=
  if tokenNum moduleName = 0 then none
  else some (redirectFsLoop files (tokenNum moduleName + 1) modulePath moduleName)

/-! ### The law -/

/-- A module name with a dot. -/
structure DottedName extends StrValue where
  dotted : charDot ∈ text

/-- The arguments of `_redirectModuleFromFs`: the path is the name behind a folder, with `/` for
`.`, and `strsPathJoin` made it in a buffer whose size is an `int32_t`. -/
structure FsImport where
  folder : CString
  name : CString
  dotted : charDot ∈ name
  noSlash : charSlash ∉ name
  fits : (folder ++ strsReplace name charDot charSlash).length < 2 ^ 31

namespace FsImport
variable (self : FsImport)

/-- The path of a name. -/
def pathOf (name : CString) : CString := self.folder ++ strsReplace name charDot charSlash

/-- There is a file of a module of this name. -/
def isFile (files : CString → Bool) (name : CString) : Bool :=
  checkModuleType files (self.pathOf name) ≠ .unknown

end FsImport

/-- The longest front of the name that is a module is returned, and NULL if none is. -/
def RedirectLaw (isModule : CString → Bool) (name : CString) : Option CString → Prop
  | some result => Tokens.Longest charDot isModule name result
  | none => ∀ front, Tokens.Front charDot front name → ¬isModule front

/-- A front of the name is a module. -/
def HasFront (isModule : CString → Bool) (name : CString) : Prop :=
  ∃ front, Tokens.Front charDot front name ∧ isModule front

/-! ### Tokens of a C string -/

variable {str : CString} {sign : BitVec 8}

theorem strPopLastToken_of_lt (h : str.length < 2 ^ 31) :
    strPopLastToken str sign = Tokens.pop sign str := by
  rw [strPopLastToken, s32_of_fits ⟨by omega, by omega⟩, Int.toNat_natCast, List.take_length,
    Tokens.pop]
  by_cases hmem : sign ∈ str
  · rw [if_pos hmem]
    refine if_neg fun hnil => ?_
    have := List.rdropWhile_eq_nil_iff.mp hnil sign hmem
    simp at this
  · rw [if_neg hmem]
    refine if_pos (List.rdropWhile_eq_nil_iff.mpr fun c hc => ?_)
    rw [decide_eq_true_eq]
    rintro rfl
    exact hmem hc

/-- In a string too long for an `int32_t` no token is found. -/
theorem strPopLastToken_of_ge (h : 2 ^ 31 ≤ str.length) (hlt : str.length < 2 ^ 32) :
    strPopLastToken str sign = str := by
  rw [strPopLastToken, s32_of_over (by omega) (by omega), Int.toNat_of_nonpos (by omega),
    List.take_zero, List.rdropWhile_nil]
  exact if_pos rfl

theorem tokenNum_of_lt (h : str.length < 2 ^ 31) : tokenNum str = str.count charDot := by
  have hle : str.count charDot ≤ str.length := List.count_le_length
  rw [tokenNum, strCountSign, s32_of_fits ⟨by omega, by omega⟩]
  omega

theorem tokenNum_ne_zero (h : charDot ∈ str) (hlt : str.length < 2 ^ 32) : tokenNum str ≠ 0 := by
  have hle : str.count charDot ≤ str.length := List.count_le_length
  have hpos := List.count_pos_iff.mpr h
  have hdvd := dvd_sub_s32 (str.count charDot)
  have hfits := fitsS32_s32 (str.count charDot)
  unfold FitsS32 at hfits
  unfold tokenNum strCountSign
  omega

/-! ### The library -/

namespace LibObj
variable (self : LibObj)

theorem redirectLoop_of_lt (rounds : Nat) {name : CString} (h : name.length < 2 ^ 31) :
    self.redirectLoop rounds name = Tokens.search charDot self.isModule rounds name := by
  induction rounds generalizing name with
  | zero => rfl
  | succ rounds ih =>
    rw [redirectLoop, Tokens.search, strPopLastToken_of_lt h]
    split
    · rfl
    · rw [ih (Nat.lt_of_le_of_lt Tokens.length_pop_le h)]

theorem redirectLoop_of_ge (rounds : Nat) {name : CString} (h : 2 ^ 31 ≤ name.length)
    (hlt : name.length < 2 ^ 32) : self.redirectLoop rounds name = name := by
  induction rounds with
  | zero => rfl
  | succ rounds ih =>
    rw [redirectLoop, strPopLastToken_of_ge h hlt, ih, ite_self]

/-- **A name is redirected as it should be if and only if** it is a module, or it is short and a
front of it is one. -/
theorem redirectModule_iff (name : DottedName) :
    RedirectLaw self.isModule name.text (self.redirectModule name.text) ↔
      self.isModule name.text ∨ name.text.length < 2 ^ 31 ∧ HasFront self.isModule name.text := by
  have hfits := name.fits
  rw [redirectModule, if_neg (tokenNum_ne_zero name.dotted (by omega))]
  by_cases hmodule : self.isModule name.text
  · rw [if_pos hmodule]
    exact iff_of_true ⟨.inl rfl, hmodule, fun q hq _ => hq.length_le⟩ (.inl hmodule)
  rw [if_neg hmodule, RedirectLaw, or_iff_right hmodule]
  by_cases hlt : name.text.length < 2 ^ 31
  · rw [redirectLoop_of_lt self _ hlt, tokenNum_of_lt hlt, and_iff_right hlt]
    exact ⟨fun h => ⟨_, h.front, h.holds⟩, fun h => Tokens.search_longest (Nat.lt_succ_self _) h⟩
  · rw [redirectLoop_of_ge self _ (by omega) (by omega)]
    exact iff_of_false (fun h => hmodule h.holds) fun h => hlt h.1

end LibObj

/-! ### The files -/

namespace FsImport
variable (self : FsImport) (files : CString → Bool)

/-- Popping the path pops the name. -/
theorem pop_pathOf {name : CString} (hdot : charDot ∈ name) (hslash : charSlash ∉ name) :
    Tokens.pop charSlash (self.pathOf name) = self.pathOf (Tokens.pop charDot name) := by
  obtain ⟨p, t, rfl, ht⟩ := Tokens.exists_last hdot
  have hslash' : charSlash ∉ t := fun hmem =>
    hslash (List.mem_append_right _ (List.mem_cons_of_mem _ hmem))
  have hpath : self.pathOf (p ++ charDot :: t) = self.pathOf p ++ charSlash :: t := by
    rw [pathOf, strsReplace, List.map_append, List.map_cons, if_pos rfl, ← List.append_assoc]
    exact congrArg (_ ++ charSlash :: ·) (strsReplace_of_not_mem ht charSlash)
  rw [hpath, Tokens.pop_append hslash', Tokens.pop_append ht]

theorem redirectFsLoop_eq (rounds : Nat) {name : CString} (hslash : charSlash ∉ name)
    (h : (self.pathOf name).length < 2 ^ 31) (hrounds : rounds ≤ name.count charDot + 1) :
    redirectFsLoop files rounds (self.pathOf name) name =
      Tokens.search charDot (self.isFile files) rounds name := by
  induction rounds generalizing name with
  | zero => rfl
  | succ rounds ih =>
    have hlength : name.length ≤ (self.pathOf name).length := by
      rw [pathOf, strsReplace, List.length_append, List.length_map]
      exact Nat.le_add_left _ _
    rw [redirectFsLoop, Tokens.search, strPopLastToken_of_lt h,
      strPopLastToken_of_lt (Nat.lt_of_le_of_lt hlength h)]
    by_cases hfile : self.isFile files name
    · rw [if_pos hfile]
      exact if_pos (of_decide_eq_true hfile)
    rw [if_neg hfile, if_neg fun hne => hfile (decide_eq_true hne)]
    by_cases hdot : charDot ∈ name
    · obtain ⟨t, hname, -⟩ := Tokens.exists_pop hdot
      rw [self.pop_pathOf hdot hslash]
      refine ih (fun hmem => hslash ?_) ?_ ?_
      · rw [hname]
        exact List.mem_append_left _ hmem
      · rw [← self.pop_pathOf hdot hslash]
        exact Nat.lt_of_le_of_lt Tokens.length_pop_le h
      · have := Tokens.count_pop hdot
        omega
    · -- the last token was tried in the last round
      obtain rfl : rounds = 0 := by
        rw [List.count_eq_zero.mpr hdot] at hrounds
        omega
      rfl

/-- **An import is redirected as it should be if and only if** a front of it is a file. -/
theorem redirectModuleFromFs_iff :
    RedirectLaw (self.isFile files) self.name
        (redirectModuleFromFs files (self.pathOf self.name) self.name) ↔
      HasFront (self.isFile files) self.name := by
  have hlength : self.name.length < 2 ^ 31 := by
    have hfits := self.fits
    rw [strsReplace, List.length_append, List.length_map] at hfits
    omega
  rw [redirectModuleFromFs, if_neg (tokenNum_ne_zero self.dotted (by omega)), RedirectLaw,
    tokenNum_of_lt hlength, self.redirectFsLoop_eq files _ self.noSlash self.fits (Nat.le_refl _)]
  exact ⟨fun h => ⟨_, h.front, h.holds⟩, fun h => Tokens.search_longest (Nat.lt_succ_self _) h⟩

end FsImport

/-! ### Both -/

/-- A name and an import are redirected as they should be. -/
def RedirectsBoth (lib : LibObj) (name : DottedName) (files : CString → Bool) (imp : FsImport) :
    Prop :=
  RedirectLaw lib.isModule name.text (lib.redirectModule name.text) ∧
    RedirectLaw (imp.isFile files) imp.name
      (redirectModuleFromFs files (imp.pathOf imp.name) imp.name)

/-- **The redirect law holds if and only if** there is a module to redirect to: the name is one,
or it is short and a front of it is one, and a front of the import is a file. -/
theorem redirect_iff (lib : LibObj) (name : DottedName) (files : CString → Bool)
    (imp : FsImport) : RedirectsBoth lib name files imp ↔
      (lib.isModule name.text ∨ name.text.length < 2 ^ 31 ∧ HasFront lib.isModule name.text) ∧
        HasFront (imp.isFile files) imp.name :=
  and_congr (lib.redirectModule_iff name) (imp.redirectModuleFromFs_iff files)

/-- **Without a module to redirect to the first token is returned**, and not NULL. -/
theorem not_redirect : ¬ ∀ lib name files imp, RedirectsBoth lib name files imp := by
  intro h
  obtain ⟨hlib, -⟩ := h [] ⟨⟨[0x61, 0x2e, 0x62], by decide, by decide⟩, by decide⟩ (fun _ => false)
    ⟨[], [0x61, 0x2e, 0x62], by decide, by decide, by decide⟩
  have hresult : LibObj.redirectModule [] [0x61, 0x2e, 0x62] = some [0x61] := by decide
  rw [hresult] at hlib
  exact absurd hlib.holds (by decide)

end PikaScript
