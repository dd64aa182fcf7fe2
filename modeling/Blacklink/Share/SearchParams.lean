import Blacklink.Share.Search
import Blacklink.Text.Numbers

/-!
# Parameters of searches

Model of how a text search of a hub becomes its parameters with the key of the cache: `searchParse`
of NMDC (`client/NmdcHub.cpp:585-641, 709-710, 2294-2321`) and the constructor `AdcSearchParam`
(`client/ShareManager.cpp:2516-2607`, `client/AdcHub.cpp:46-54, 1272-1279`). A type of files that is
out of range is in no mask.
-/

namespace Blacklink.Share

open Blacklink.Text

/-! ### NMDC -/

/-- The loop of `validateMessage` that replaces a name of a character. -/
def replaceAll (name : List UInt8) (c : UInt8) : Nat → List UInt8 → List UInt8
  | 0, s => s
  | _, [] => []
  | n + 1, b :: s =>
    if name.isPrefixOf (b :: s) then c :: replaceAll name c n ((b :: s).drop name.length)
    else b :: replaceAll name c n s

/-- `NmdcHub::unescape`. -/
def unescapeNmdc (s : List UInt8) : List UInt8 :=
  let s := replaceAll (ascii "&#36;") 0x24 s.length s
  let s := replaceAll (ascii "&#124;") 0x7c s.length s
  replaceAll (ascii "&amp;") 0x26 s.length s

/-- `FILE_TYPE_TTH`. -/
def fileTypeTTH : Int := 8

/-- What `searchParse` makes of a query; `none` when it is not a search for a text. -/
def nmdcSearchParam (query : List UInt8) (maxResults : Nat) (shareGroup : CID) :
    Option NmdcSearchParam :=
  if query.length < 4 ∨ query[1]? ≠ some 0x3f ∨ query[3]? ≠ some 0x3f then none
  else
    let sizeMode : SizeMode :=
      if query[0]? = some 0x46 then .dontCare
      else if query[2]? = some 0x46 then .atLeast
      else .atMost
    let sizePart := query.drop 4
    match sizePart.findIdx? (· = 0x3f) with
    | none | some 0 => none
    | some j =>
      let size := if j = 1 ∧ sizePart[0]? = some 0x30 then 0 else toInt64 sizePart
      let typePart := sizePart.drop (j + 1)
      match typePart.findIdx? (· = 0x3f) with
      | none | some 0 => none
      | some j =>
        let fileType := toInt typePart - 1
        let filter := unescapeNmdc (typePart.drop (j + 1))
        if fileType = fileTypeTTH ∨ filter = [] then none
        else
          let cacheKey := query ++ if shareGroup = .zero then [] else 0x7c :: toBase32 shareGroup
          some
            { sizeMode := sizeMode
              size := size
              maxResults := maxResults
              fileType := if 0 ≤ fileType ∧ fileType < 16 then fileType.toNat else 31
              filter := filter
              cacheKey := natToString maxResults ++ 0x3d :: cacheKey
              shareGroup := shareGroup }

/-! ### ADC -/

/-- `searchExts`. -/
def searchExts : List (List (List UInt8)) :=
  [["ape", "flac", "m4a", "mid", "mp3", "mpc", "ogg", "ra", "wav", "wma"],
    ["7z", "ace", "arj", "bz2", "gz", "lha", "lzh", "rar", "tar", "z", "zip"],
    ["doc", "docx", "htm", "html", "nfo", "odf", "odp", "ods", "odt", "pdf", "ppt", "pptx", "rtf",
      "txt", "xls", "xlsx", "xml", "xps"],
    ["app", "bat", "cmd", "com", "dll", "exe", "jar", "msi", "ps1", "vbs", "wsf"],
    ["bmp", "cdr", "eps", "gif", "ico", "img", "jpeg", "jpg", "png", "ps", "psd", "sfw", "tga",
      "tif", "webp"],
    ["3gp", "asf", "asx", "avi", "divx", "flv", "mkv", "mov", "mp4", "mpeg", "mpg", "ogm", "pxp",
      "qt", "rm", "rmvb", "swf", "vob", "webm", "wmv"]].map (List.map ascii)

/-- `parseSearchExts`. -/
def parseSearchExts (flag : Int) : List (List UInt8) :=
  (List.range searchExts.length).foldl
    (fun exts i =>
      if (flag % 2 ^ 32).toNat.testBit i then searchExts.getD i [] ++ exts else exts) []

namespace AdcSearchParam

/-- The parameters before any is read. -/
def initial (maxResults : Nat) (shareGroup : CID) : AdcSearchParam :=
  ⟨[], [], [], [], 0, 2 ^ 63 - 1, false, maxResults, [], shareGroup⟩

/-- The constructor reads a parameter other than `TR`. What is not about the text is left out. -/
def addParam (env : Env) (sp : AdcSearchParam) (p : List UInt8) : AdcSearchParam :=
  let cmd := p.take 2
  let arg := p.drop 2
  let keyed := { sp with cacheKey := sp.cacheKey ++ 0x20 :: p }
  if p.length ≤ 2 then sp
  else if cmd = ascii "AN" then { keyed with included := sp.included ++ [.new env arg] }
  else if cmd = ascii "NO" then { keyed with excluded := sp.excluded ++ [.new env arg] }
  else if cmd = ascii "EX" then { keyed with exts := sp.exts ++ [arg] }
  else if cmd = ascii "GR" then { keyed with exts := parseSearchExts (toInt arg) ++ sp.exts }
  else if cmd = ascii "RX" then { keyed with noExts := sp.noExts ++ [arg] }
  else if cmd = ascii "GE" then { keyed with gt := toInt64 arg }
  else if cmd = ascii "LE" then { keyed with lt := toInt64 arg }
  else if cmd = ascii "EQ" then { keyed with lt := toInt64 arg, gt := toInt64 arg }
  else if cmd = ascii "TY" then { keyed with isDirectory := arg.head? = some 0x32 }
  else sp

end AdcSearchParam

/-- `AdcSearchParam(params, maxResults, shareGroup)`; `none` when it has a root. -/
def adcSearchParam (env : Env) (params : List (List UInt8)) (maxResults : Nat)
    (shareGroup : CID) : Option AdcSearchParam :=
  if params.any fun p => 2 < p.length && p.take 2 = ascii "TR" then none
  else
    let sp := params.foldl (AdcSearchParam.addParam env) (.initial maxResults shareGroup)
    if sp.cacheKey = [] then some sp
    else
      let group := if shareGroup = .zero then [] else ascii "SG" ++ toBase32 shareGroup
      some { sp with cacheKey := natToString maxResults ++ 0x3d :: (sp.cacheKey ++ group) }

/-! ### Searches of both protocols -/

/-- The parameters of a search for a text. -/
inductive TextSearchParam where
  | nmdc (sp : NmdcSearchParam)
  | adc (sp : AdcSearchParam)

namespace TextSearchParam

/-- `cacheKey`. -/
def cacheKey : TextSearchParam → List UInt8
  | nmdc sp => sp.cacheKey
  | adc sp => sp.cacheKey

/-- What a hub asks for gives these parameters. -/
inductive Requested (env : Env) : TextSearchParam → Prop
  | nmdc {query : List UInt8} {maxResults : Nat} {shareGroup : CID} {sp : NmdcSearchParam}
      (h : nmdcSearchParam query maxResults shareGroup = some sp) : Requested env (.nmdc sp)
  | adc {params : List (List UInt8)} {maxResults : Nat} {shareGroup : CID} {sp : AdcSearchParam}
      (h : adcSearchParam env params maxResults shareGroup = some sp) : Requested env (.adc sp)

end TextSearchParam

/-- What a search finds by walking the trees of its group. -/
def ShareManager.walk {TTH : Type} [Inhabited TTH] (env : Env) (s : ShareManager TTH) :
    TextSearchParam → List (SearchResultCore TTH)
  | .nmdc sp => s.searchTrees env sp
  | .adc sp => s.searchAdcTrees env sp

end Blacklink.Share
