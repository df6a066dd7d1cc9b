/-
  Crabc.Iconv.Iso8859

  The ISO-8859-2..16 single-byte tables of `crabc-core/src/iconv_iso8859.rs`
  and the typed accessors `Iso8859::decode` and `Iso8859::encode`.

  A table lists the scalars of the bytes `0x80..0xff`; a byte the standard
  leaves undefined is filled with its own value.  Encoding searches the table
  from the front, so a scalar that stands in two slots is always written as the
  first of them.  Only ISO-8859-8 has such a scalar: `0xaa` is U+00D7, and the
  undefined `0xd7` is filled with U+00D7 too.
-/

import Mathlib

namespace Crabc.Iconv

/-- `ISO8859_2_TO_U`. -/
def iso8859_2ToU : List Nat :=
  [0x80, 0x81, 0x82, 0x83, 0x84, 0x85, 0x86, 0x87, 0x88, 0x89, 0x8a, 0x8b, 0x8c, 0x8d, 0x8e, 0x8f,
   0x90, 0x91, 0x92, 0x93, 0x94, 0x95, 0x96, 0x97, 0x98, 0x99, 0x9a, 0x9b, 0x9c, 0x9d, 0x9e, 0x9f,
   0xa0, 0x104, 0x2d8, 0x141, 0xa4, 0x13d, 0x15a, 0xa7, 0xa8, 0x160, 0x15e, 0x164, 0x179, 0xad,
   0x17d, 0x17b, 0xb0, 0x105, 0x2db, 0x142, 0xb4, 0x13e, 0x15b, 0x2c7, 0xb8, 0x161, 0x15f, 0x165,
   0x17a, 0x2dd, 0x17e, 0x17c, 0x154, 0xc1, 0xc2, 0x102, 0xc4, 0x139, 0x106, 0xc7, 0x10c, 0xc9,
   0x118, 0xcb, 0x11a, 0xcd, 0xce, 0x10e, 0x110, 0x143, 0x147, 0xd3, 0xd4, 0x150, 0xd6, 0xd7, 0x158,
   0x16e, 0xda, 0x170, 0xdc, 0xdd, 0x162, 0xdf, 0x155, 0xe1, 0xe2, 0x103, 0xe4, 0x13a, 0x107, 0xe7,
   0x10d, 0xe9, 0x119, 0xeb, 0x11b, 0xed, 0xee, 0x10f, 0x111, 0x144, 0x148, 0xf3, 0xf4, 0x151, 0xf6,
   0xf7, 0x159, 0x16f, 0xfa, 0x171, 0xfc, 0xfd, 0x163, 0x2d9]

/-- `ISO8859_3_TO_U`. -/
def iso8859_3ToU : List Nat :=
  [0x80, 0x81, 0x82, 0x83, 0x84, 0x85, 0x86, 0x87, 0x88, 0x89, 0x8a, 0x8b, 0x8c, 0x8d, 0x8e, 0x8f,
   0x90, 0x91, 0x92, 0x93, 0x94, 0x95, 0x96, 0x97, 0x98, 0x99, 0x9a, 0x9b, 0x9c, 0x9d, 0x9e, 0x9f,
   0xa0, 0x126, 0x2d8, 0xa3, 0xa4, 0xa5, 0x124, 0xa7, 0xa8, 0x130, 0x15e, 0x11e, 0x134, 0xad, 0xae,
   0x17b, 0xb0, 0x127, 0xb2, 0xb3, 0xb4, 0xb5, 0x125, 0xb7, 0xb8, 0x131, 0x15f, 0x11f, 0x135, 0xbd,
   0xbe, 0x17c, 0xc0, 0xc1, 0xc2, 0xc3, 0xc4, 0x10a, 0x108, 0xc7, 0xc8, 0xc9, 0xca, 0xcb, 0xcc,
   0xcd, 0xce, 0xcf, 0xd0, 0xd1, 0xd2, 0xd3, 0xd4, 0x120, 0xd6, 0xd7, 0x11c, 0xd9, 0xda, 0xdb, 0xdc,
   0x16c, 0x15c, 0xdf, 0xe0, 0xe1, 0xe2, 0xe3, 0xe4, 0x10b, 0x109, 0xe7, 0xe8, 0xe9, 0xea, 0xeb,
   0xec, 0xed, 0xee, 0xef, 0xf0, 0xf1, 0xf2, 0xf3, 0xf4, 0x121, 0xf6, 0xf7, 0x11d, 0xf9, 0xfa, 0xfb,
   0xfc, 0x16d, 0x15d, 0x2d9]

/-- `ISO8859_4_TO_U`. -/
def iso8859_4ToU : List Nat :=
  [0x80, 0x81, 0x82, 0x83, 0x84, 0x85, 0x86, 0x87, 0x88, 0x89, 0x8a, 0x8b, 0x8c, 0x8d, 0x8e, 0x8f,
   0x90, 0x91, 0x92, 0x93, 0x94, 0x95, 0x96, 0x97, 0x98, 0x99, 0x9a, 0x9b, 0x9c, 0x9d, 0x9e, 0x9f,
   0xa0, 0x104, 0x138, 0x156, 0xa4, 0x128, 0x13b, 0xa7, 0xa8, 0x160, 0x112, 0x122, 0x166, 0xad,
   0x17d, 0xaf, 0xb0, 0x105, 0x2db, 0x157, 0xb4, 0x129, 0x13c, 0x2c7, 0xb8, 0x161, 0x113, 0x123,
   0x167, 0x14a, 0x17e, 0x14b, 0x100, 0xc1, 0xc2, 0xc3, 0xc4, 0xc5, 0xc6, 0x12e, 0x10c, 0xc9, 0x118,
   0xcb, 0x116, 0xcd, 0xce, 0x12a, 0x110, 0x145, 0x14c, 0x136, 0xd4, 0xd5, 0xd6, 0xd7, 0xd8, 0x172,
   0xda, 0xdb, 0xdc, 0x168, 0x16a, 0xdf, 0x101, 0xe1, 0xe2, 0xe3, 0xe4, 0xe5, 0xe6, 0x12f, 0x10d,
   0xe9, 0x119, 0xeb, 0x117, 0xed, 0xee, 0x12b, 0x111, 0x146, 0x14d, 0x137, 0xf4, 0xf5, 0xf6, 0xf7,
   0xf8, 0x173, 0xfa, 0xfb, 0xfc, 0x169, 0x16b, 0x2d9]

/-- `ISO8859_5_TO_U`. -/
def iso8859_5ToU : List Nat :=
  [0x80, 0x81, 0x82, 0x83, 0x84, 0x85, 0x86, 0x87, 0x88, 0x89, 0x8a, 0x8b, 0x8c, 0x8d, 0x8e, 0x8f,
   0x90, 0x91, 0x92, 0x93, 0x94, 0x95, 0x96, 0x97, 0x98, 0x99, 0x9a, 0x9b, 0x9c, 0x9d, 0x9e, 0x9f,
   0xa0, 0x401, 0x402, 0x403, 0x404, 0x405, 0x406, 0x407, 0x408, 0x409, 0x40a, 0x40b, 0x40c, 0xad,
   0x40e, 0x40f, 0x410, 0x411, 0x412, 0x413, 0x414, 0x415, 0x416, 0x417, 0x418, 0x419, 0x41a, 0x41b,
   0x41c, 0x41d, 0x41e, 0x41f, 0x420, 0x421, 0x422, 0x423, 0x424, 0x425, 0x426, 0x427, 0x428, 0x429,
   0x42a, 0x42b, 0x42c, 0x42d, 0x42e, 0x42f, 0x430, 0x431, 0x432, 0x433, 0x434, 0x435, 0x436, 0x437,
   0x438, 0x439, 0x43a, 0x43b, 0x43c, 0x43d, 0x43e, 0x43f, 0x440, 0x441, 0x442, 0x443, 0x444, 0x445,
   0x446, 0x447, 0x448, 0x449, 0x44a, 0x44b, 0x44c, 0x44d, 0x44e, 0x44f, 0x2116, 0x451, 0x452,
   0x453, 0x454, 0x455, 0x456, 0x457, 0x458, 0x459, 0x45a, 0x45b, 0x45c, 0xa7, 0x45e, 0x45f]

/-- `ISO8859_6_TO_U`. -/
def iso8859_6ToU : List Nat :=
  [0x80, 0x81, 0x82, 0x83, 0x84, 0x85, 0x86, 0x87, 0x88, 0x89, 0x8a, 0x8b, 0x8c, 0x8d, 0x8e, 0x8f,
   0x90, 0x91, 0x92, 0x93, 0x94, 0x95, 0x96, 0x97, 0x98, 0x99, 0x9a, 0x9b, 0x9c, 0x9d, 0x9e, 0x9f,
   0xa0, 0xa1, 0xa2, 0xa3, 0xa4, 0xa5, 0xa6, 0xa7, 0xa8, 0xa9, 0xaa, 0xab, 0x60c, 0xad, 0xae, 0xaf,
   0xb0, 0xb1, 0xb2, 0xb3, 0xb4, 0xb5, 0xb6, 0xb7, 0xb8, 0xb9, 0xba, 0x61b, 0xbc, 0xbd, 0xbe, 0x61f,
   0xc0, 0x621, 0x622, 0x623, 0x624, 0x625, 0x626, 0x627, 0x628, 0x629, 0x62a, 0x62b, 0x62c, 0x62d,
   0x62e, 0x62f, 0x630, 0x631, 0x632, 0x633, 0x634, 0x635, 0x636, 0x637, 0x638, 0x639, 0x63a, 0xdb,
   0xdc, 0xdd, 0xde, 0xdf, 0x640, 0x641, 0x642, 0x643, 0x644, 0x645, 0x646, 0x647, 0x648, 0x649,
   0x64a, 0x64b, 0x64c, 0x64d, 0x64e, 0x64f, 0x650, 0x651, 0x652, 0xf3, 0xf4, 0xf5, 0xf6, 0xf7,
   0xf8, 0xf9, 0xfa, 0xfb, 0xfc, 0xfd, 0xfe, 0xff]

/-- `ISO8859_7_TO_U`. -/
def iso8859_7ToU : List Nat :=
  [0x80, 0x81, 0x82, 0x83, 0x84, 0x85, 0x86, 0x87, 0x88, 0x89, 0x8a, 0x8b, 0x8c, 0x8d, 0x8e, 0x8f,
   0x90, 0x91, 0x92, 0x93, 0x94, 0x95, 0x96, 0x97, 0x98, 0x99, 0x9a, 0x9b, 0x9c, 0x9d, 0x9e, 0x9f,
   0xa0, 0x2018, 0x2019, 0xa3, 0x20ac, 0x20af, 0xa6, 0xa7, 0xa8, 0xa9, 0x37a, 0xab, 0xac, 0xad,
   0xae, 0x2015, 0xb0, 0xb1, 0xb2, 0xb3, 0x384, 0x385, 0x386, 0xb7, 0x388, 0x389, 0x38a, 0xbb,
   0x38c, 0xbd, 0x38e, 0x38f, 0x390, 0x391, 0x392, 0x393, 0x394, 0x395, 0x396, 0x397, 0x398, 0x399,
   0x39a, 0x39b, 0x39c, 0x39d, 0x39e, 0x39f, 0x3a0, 0x3a1, 0xd2, 0x3a3, 0x3a4, 0x3a5, 0x3a6, 0x3a7,
   0x3a8, 0x3a9, 0x3aa, 0x3ab, 0x3ac, 0x3ad, 0x3ae, 0x3af, 0x3b0, 0x3b1, 0x3b2, 0x3b3, 0x3b4, 0x3b5,
   0x3b6, 0x3b7, 0x3b8, 0x3b9, 0x3ba, 0x3bb, 0x3bc, 0x3bd, 0x3be, 0x3bf, 0x3c0, 0x3c1, 0x3c2, 0x3c3,
   0x3c4, 0x3c5, 0x3c6, 0x3c7, 0x3c8, 0x3c9, 0x3ca, 0x3cb, 0x3cc, 0x3cd, 0x3ce, 0xff]

/-- `ISO8859_8_TO_U`. -/
def iso8859_8ToU : List Nat :=
  [0x80, 0x81, 0x82, 0x83, 0x84, 0x85, 0x86, 0x87, 0x88, 0x89, 0x8a, 0x8b, 0x8c, 0x8d, 0x8e, 0x8f,
   0x90, 0x91, 0x92, 0x93, 0x94, 0x95, 0x96, 0x97, 0x98, 0x99, 0x9a, 0x9b, 0x9c, 0x9d, 0x9e, 0x9f,
   0xa0, 0xa1, 0xa2, 0xa3, 0xa4, 0xa5, 0xa6, 0xa7, 0xa8, 0xa9, 0xd7, 0xab, 0xac, 0xad, 0xae, 0xaf,
   0xb0, 0xb1, 0xb2, 0xb3, 0xb4, 0xb5, 0xb6, 0xb7, 0xb8, 0xb9, 0xf7, 0xbb, 0xbc, 0xbd, 0xbe, 0xbf,
   0xc0, 0xc1, 0xc2, 0xc3, 0xc4, 0xc5, 0xc6, 0xc7, 0xc8, 0xc9, 0xca, 0xcb, 0xcc, 0xcd, 0xce, 0xcf,
   0xd0, 0xd1, 0xd2, 0xd3, 0xd4, 0xd5, 0xd6, 0xd7, 0xd8, 0xd9, 0xda, 0xdb, 0xdc, 0xdd, 0xde, 0x2017,
   0x5d0, 0x5d1, 0x5d2, 0x5d3, 0x5d4, 0x5d5, 0x5d6, 0x5d7, 0x5d8, 0x5d9, 0x5da, 0x5db, 0x5dc, 0x5dd,
   0x5de, 0x5df, 0x5e0, 0x5e1, 0x5e2, 0x5e3, 0x5e4, 0x5e5, 0x5e6, 0x5e7, 0x5e8, 0x5e9, 0x5ea, 0xfb,
   0xfc, 0x200e, 0x200f, 0xff]

/-- `ISO8859_9_TO_U`. -/
def iso8859_9ToU : List Nat :=
  [0x80, 0x81, 0x82, 0x83, 0x84, 0x85, 0x86, 0x87, 0x88, 0x89, 0x8a, 0x8b, 0x8c, 0x8d, 0x8e, 0x8f,
   0x90, 0x91, 0x92, 0x93, 0x94, 0x95, 0x96, 0x97, 0x98, 0x99, 0x9a, 0x9b, 0x9c, 0x9d, 0x9e, 0x9f,
   0xa0, 0xa1, 0xa2, 0xa3, 0xa4, 0xa5, 0xa6, 0xa7, 0xa8, 0xa9, 0xaa, 0xab, 0xac, 0xad, 0xae, 0xaf,
   0xb0, 0xb1, 0xb2, 0xb3, 0xb4, 0xb5, 0xb6, 0xb7, 0xb8, 0xb9, 0xba, 0xbb, 0xbc, 0xbd, 0xbe, 0xbf,
   0xc0, 0xc1, 0xc2, 0xc3, 0xc4, 0xc5, 0xc6, 0xc7, 0xc8, 0xc9, 0xca, 0xcb, 0xcc, 0xcd, 0xce, 0xcf,
   0x11e, 0xd1, 0xd2, 0xd3, 0xd4, 0xd5, 0xd6, 0xd7, 0xd8, 0xd9, 0xda, 0xdb, 0xdc, 0x130, 0x15e,
   0xdf, 0xe0, 0xe1, 0xe2, 0xe3, 0xe4, 0xe5, 0xe6, 0xe7, 0xe8, 0xe9, 0xea, 0xeb, 0xec, 0xed, 0xee,
   0xef, 0x11f, 0xf1, 0xf2, 0xf3, 0xf4, 0xf5, 0xf6, 0xf7, 0xf8, 0xf9, 0xfa, 0xfb, 0xfc, 0x131,
   0x15f, 0xff]

/-- `ISO8859_10_TO_U`. -/
def iso8859_10ToU : List Nat :=
  [0x80, 0x81, 0x82, 0x83, 0x84, 0x85, 0x86, 0x87, 0x88, 0x89, 0x8a, 0x8b, 0x8c, 0x8d, 0x8e, 0x8f,
   0x90, 0x91, 0x92, 0x93, 0x94, 0x95, 0x96, 0x97, 0x98, 0x99, 0x9a, 0x9b, 0x9c, 0x9d, 0x9e, 0x9f,
   0xa0, 0x104, 0x112, 0x122, 0x12a, 0x128, 0x136, 0xa7, 0x13b, 0x110, 0x160, 0x166, 0x17d, 0xad,
   0x16a, 0x14a, 0xb0, 0x105, 0x113, 0x123, 0x12b, 0x129, 0x137, 0xb7, 0x13c, 0x111, 0x161, 0x167,
   0x17e, 0x2015, 0x16b, 0x14b, 0x100, 0xc1, 0xc2, 0xc3, 0xc4, 0xc5, 0xc6, 0x12e, 0x10c, 0xc9,
   0x118, 0xcb, 0x116, 0xcd, 0xce, 0xcf, 0xd0, 0x145, 0x14c, 0xd3, 0xd4, 0xd5, 0xd6, 0x168, 0xd8,
   0x172, 0xda, 0xdb, 0xdc, 0xdd, 0xde, 0xdf, 0x101, 0xe1, 0xe2, 0xe3, 0xe4, 0xe5, 0xe6, 0x12f,
   0x10d, 0xe9, 0x119, 0xeb, 0x117, 0xed, 0xee, 0xef, 0xf0, 0x146, 0x14d, 0xf3, 0xf4, 0xf5, 0xf6,
   0x169, 0xf8, 0x173, 0xfa, 0xfb, 0xfc, 0xfd, 0xfe, 0x138]

/-- `ISO8859_11_TO_U`. -/
def iso8859_11ToU : List Nat :=
  [0x80, 0x81, 0x82, 0x83, 0x84, 0x85, 0x86, 0x87, 0x88, 0x89, 0x8a, 0x8b, 0x8c, 0x8d, 0x8e, 0x8f,
   0x90, 0x91, 0x92, 0x93, 0x94, 0x95, 0x96, 0x97, 0x98, 0x99, 0x9a, 0x9b, 0x9c, 0x9d, 0x9e, 0x9f,
   0xa0, 0xe01, 0xe02, 0xe03, 0xe04, 0xe05, 0xe06, 0xe07, 0xe08, 0xe09, 0xe0a, 0xe0b, 0xe0c, 0xe0d,
   0xe0e, 0xe0f, 0xe10, 0xe11, 0xe12, 0xe13, 0xe14, 0xe15, 0xe16, 0xe17, 0xe18, 0xe19, 0xe1a, 0xe1b,
   0xe1c, 0xe1d, 0xe1e, 0xe1f, 0xe20, 0xe21, 0xe22, 0xe23, 0xe24, 0xe25, 0xe26, 0xe27, 0xe28, 0xe29,
   0xe2a, 0xe2b, 0xe2c, 0xe2d, 0xe2e, 0xe2f, 0xe30, 0xe31, 0xe32, 0xe33, 0xe34, 0xe35, 0xe36, 0xe37,
   0xe38, 0xe39, 0xe3a, 0xdb, 0xdc, 0xdd, 0xde, 0xe3f, 0xe40, 0xe41, 0xe42, 0xe43, 0xe44, 0xe45,
   0xe46, 0xe47, 0xe48, 0xe49, 0xe4a, 0xe4b, 0xe4c, 0xe4d, 0xe4e, 0xe4f, 0xe50, 0xe51, 0xe52, 0xe53,
   0xe54, 0xe55, 0xe56, 0xe57, 0xe58, 0xe59, 0xe5a, 0xe5b, 0xfc, 0xfd, 0xfe, 0xff]

/-- `ISO8859_13_TO_U`. -/
def iso8859_13ToU : List Nat :=
  [0x80, 0x81, 0x82, 0x83, 0x84, 0x85, 0x86, 0x87, 0x88, 0x89, 0x8a, 0x8b, 0x8c, 0x8d, 0x8e, 0x8f,
   0x90, 0x91, 0x92, 0x93, 0x94, 0x95, 0x96, 0x97, 0x98, 0x99, 0x9a, 0x9b, 0x9c, 0x9d, 0x9e, 0x9f,
   0xa0, 0x201d, 0xa2, 0xa3, 0xa4, 0x201e, 0xa6, 0xa7, 0xd8, 0xa9, 0x156, 0xab, 0xac, 0xad, 0xae,
   0xc6, 0xb0, 0xb1, 0xb2, 0xb3, 0x201c, 0xb5, 0xb6, 0xb7, 0xf8, 0xb9, 0x157, 0xbb, 0xbc, 0xbd,
   0xbe, 0xe6, 0x104, 0x12e, 0x100, 0x106, 0xc4, 0xc5, 0x118, 0x112, 0x10c, 0xc9, 0x179, 0x116,
   0x122, 0x136, 0x12a, 0x13b, 0x160, 0x143, 0x145, 0xd3, 0x14c, 0xd5, 0xd6, 0xd7, 0x172, 0x141,
   0x15a, 0x16a, 0xdc, 0x17b, 0x17d, 0xdf, 0x105, 0x12f, 0x101, 0x107, 0xe4, 0xe5, 0x119, 0x113,
   0x10d, 0xe9, 0x17a, 0x117, 0x123, 0x137, 0x12b, 0x13c, 0x161, 0x144, 0x146, 0xf3, 0x14d, 0xf5,
   0xf6, 0xf7, 0x173, 0x142, 0x15b, 0x16b, 0xfc, 0x17c, 0x17e, 0x2019]

/-- `ISO8859_14_TO_U`. -/
def iso8859_14ToU : List Nat :=
  [0x80, 0x81, 0x82, 0x83, 0x84, 0x85, 0x86, 0x87, 0x88, 0x89, 0x8a, 0x8b, 0x8c, 0x8d, 0x8e, 0x8f,
   0x90, 0x91, 0x92, 0x93, 0x94, 0x95, 0x96, 0x97, 0x98, 0x99, 0x9a, 0x9b, 0x9c, 0x9d, 0x9e, 0x9f,
   0xa0, 0x1e02, 0x1e03, 0xa3, 0x10a, 0x10b, 0x1e0a, 0xa7, 0x1e80, 0xa9, 0x1e82, 0x1e0b, 0x1ef2,
   0xad, 0xae, 0x178, 0x1e1e, 0x1e1f, 0x120, 0x121, 0x1e40, 0x1e41, 0xb6, 0x1e56, 0x1e81, 0x1e57,
   0x1e83, 0x1e60, 0x1ef3, 0x1e84, 0x1e85, 0x1e61, 0xc0, 0xc1, 0xc2, 0xc3, 0xc4, 0xc5, 0xc6, 0xc7,
   0xc8, 0xc9, 0xca, 0xcb, 0xcc, 0xcd, 0xce, 0xcf, 0x174, 0xd1, 0xd2, 0xd3, 0xd4, 0xd5, 0xd6,
   0x1e6a, 0xd8, 0xd9, 0xda, 0xdb, 0xdc, 0xdd, 0x176, 0xdf, 0xe0, 0xe1, 0xe2, 0xe3, 0xe4, 0xe5,
   0xe6, 0xe7, 0xe8, 0xe9, 0xea, 0xeb, 0xec, 0xed, 0xee, 0xef, 0x175, 0xf1, 0xf2, 0xf3, 0xf4, 0xf5,
   0xf6, 0x1e6b, 0xf8, 0xf9, 0xfa, 0xfb, 0xfc, 0xfd, 0x177, 0xff]

/-- `ISO8859_15_TO_U`. -/
def iso8859_15ToU : List Nat :=
  [0x80, 0x81, 0x82, 0x83, 0x84, 0x85, 0x86, 0x87, 0x88, 0x89, 0x8a, 0x8b, 0x8c, 0x8d, 0x8e, 0x8f,
   0x90, 0x91, 0x92, 0x93, 0x94, 0x95, 0x96, 0x97, 0x98, 0x99, 0x9a, 0x9b, 0x9c, 0x9d, 0x9e, 0x9f,
   0xa0, 0xa1, 0xa2, 0xa3, 0x20ac, 0xa5, 0x160, 0xa7, 0x161, 0xa9, 0xaa, 0xab, 0xac, 0xad, 0xae,
   0xaf, 0xb0, 0xb1, 0xb2, 0xb3, 0x17d, 0xb5, 0xb6, 0xb7, 0x17e, 0xb9, 0xba, 0xbb, 0x152, 0x153,
   0x178, 0xbf, 0xc0, 0xc1, 0xc2, 0xc3, 0xc4, 0xc5, 0xc6, 0xc7, 0xc8, 0xc9, 0xca, 0xcb, 0xcc, 0xcd,
   0xce, 0xcf, 0xd0, 0xd1, 0xd2, 0xd3, 0xd4, 0xd5, 0xd6, 0xd7, 0xd8, 0xd9, 0xda, 0xdb, 0xdc, 0xdd,
   0xde, 0xdf, 0xe0, 0xe1, 0xe2, 0xe3, 0xe4, 0xe5, 0xe6, 0xe7, 0xe8, 0xe9, 0xea, 0xeb, 0xec, 0xed,
   0xee, 0xef, 0xf0, 0xf1, 0xf2, 0xf3, 0xf4, 0xf5, 0xf6, 0xf7, 0xf8, 0xf9, 0xfa, 0xfb, 0xfc, 0xfd,
   0xfe, 0xff]

/-- `ISO8859_16_TO_U`. -/
def iso8859_16ToU : List Nat :=
  [0x80, 0x81, 0x82, 0x83, 0x84, 0x85, 0x86, 0x87, 0x88, 0x89, 0x8a, 0x8b, 0x8c, 0x8d, 0x8e, 0x8f,
   0x90, 0x91, 0x92, 0x93, 0x94, 0x95, 0x96, 0x97, 0x98, 0x99, 0x9a, 0x9b, 0x9c, 0x9d, 0x9e, 0x9f,
   0xa0, 0x104, 0x105, 0x141, 0x20ac, 0x201e, 0x160, 0xa7, 0x161, 0xa9, 0x218, 0xab, 0x179, 0xad,
   0x17a, 0x17b, 0xb0, 0xb1, 0x10c, 0x142, 0x17d, 0x201d, 0xb6, 0xb7, 0x17e, 0x10d, 0x219, 0xbb,
   0x152, 0x153, 0x178, 0x17c, 0xc0, 0xc1, 0xc2, 0x102, 0xc4, 0x106, 0xc6, 0xc7, 0xc8, 0xc9, 0xca,
   0xcb, 0xcc, 0xcd, 0xce, 0xcf, 0x110, 0x143, 0xd2, 0xd3, 0xd4, 0x150, 0xd6, 0x15a, 0x170, 0xd9,
   0xda, 0xdb, 0xdc, 0x118, 0x21a, 0xdf, 0xe0, 0xe1, 0xe2, 0x103, 0xe4, 0x107, 0xe6, 0xe7, 0xe8,
   0xe9, 0xea, 0xeb, 0xec, 0xed, 0xee, 0xef, 0x111, 0x144, 0xf2, 0xf3, 0xf4, 0x151, 0xf6, 0x15b,
   0x171, 0xf9, 0xfa, 0xfb, 0xfc, 0x119, 0x21b, 0xff]

/-- `iso8859_to_u`: the scalar of a byte. -/
def iso8859ToU (table : List Nat) (b : UInt8) : Nat :=
  if b < 128 then b.toNat else table.getD (b.toNat - 128) 0

/-- `u_to_iso8859`: the first byte of a scalar, if any. -/
def uToIso8859 (table : List Nat) (c : Nat) : Option UInt8 :=
  if c < 128 then some (UInt8.ofNat c)
  else (table.findIdx? (· == c)).map fun i => UInt8.ofNat (i + 128)

/-- The table-backed encodings. -/
inductive Iso8859 where
  | iso8859_2
  | iso8859_3
  | iso8859_4
  | iso8859_5
  | iso8859_6
  | iso8859_7
  | iso8859_8
  | iso8859_9
  | iso8859_10
  | iso8859_11
  | iso8859_13
  | iso8859_14
  | iso8859_15
  | iso8859_16
deriving DecidableEq, Repr

/-- The table of each encoding. -/
def Iso8859.table : Iso8859 → List Nat
  | .iso8859_2 => iso8859_2ToU
  | .iso8859_3 => iso8859_3ToU
  | .iso8859_4 => iso8859_4ToU
  | .iso8859_5 => iso8859_5ToU
  | .iso8859_6 => iso8859_6ToU
  | .iso8859_7 => iso8859_7ToU
  | .iso8859_8 => iso8859_8ToU
  | .iso8859_9 => iso8859_9ToU
  | .iso8859_10 => iso8859_10ToU
  | .iso8859_11 => iso8859_11ToU
  | .iso8859_13 => iso8859_13ToU
  | .iso8859_14 => iso8859_14ToU
  | .iso8859_15 => iso8859_15ToU
  | .iso8859_16 => iso8859_16ToU

/-- `Iso8859::decode`. -/
def Iso8859.decode (t : Iso8859) (byte : UInt8) : Nat := iso8859ToU t.table byte

/-- `Iso8859::encode`. -/
def Iso8859.encode (t : Iso8859) (codepoint : Nat) : Option UInt8 := uToIso8859 t.table codepoint

/-! ## The tables -/

variable {t : Iso8859}

theorem Iso8859.table_length : t.table.length = 128 := by
  cases t <;> rfl

/-- Every entry is a scalar of the basic plane below the surrogates, and none is ASCII. -/
theorem Iso8859.table_range : ∀ u ∈ t.table, 128 ≤ u ∧ u < 0xd800 := by
  cases t <;> decide +kernel

/-- Membership check with the numbers seen so far kept as the bits of `seen`. -/
def distinctFrom (seen : Nat) : List Nat → Bool
  | [] => true
  | u :: us => !seen.testBit u && distinctFrom (seen ||| 1 <<< u) us

theorem testBit_mark {seen : Nat} (u v : Nat) : (seen ||| 1 <<< u).testBit v = (seen.testBit v || decide (v = u)) := by
  rw [Nat.testBit_or, Nat.one_shiftLeft, Nat.testBit_two_pow]
  simp only [eq_comm]

open List

theorem nodup_of_distinctFrom {seen : Nat} {l : List Nat} (h : distinctFrom seen l = true) :
    l.Nodup ∧ ∀ v ∈ l, seen.testBit v = false := by
  induction l generalizing seen with
  | nil => simp
  | cons u us ih =>
    rw [distinctFrom, Bool.and_eq_true, Bool.not_eq_true'] at h
    obtain ⟨hnd, hfresh⟩ := ih h.2
    have hu : u ∉ us := by
      intro hmem
      have hbit := hfresh u hmem
      simp at hbit
    refine ⟨nodup_cons.mpr ⟨hu, hnd⟩, ?_⟩
    intro v hv
    rcases mem_cons.mp hv with rfl | hv
    · exact h.1
    · have hbit := hfresh v hv
      rw [testBit_mark, Bool.or_eq_false_iff] at hbit
      exact hbit.1

/-- With the one repeated slot blanked out the entries are distinct. -/
theorem Iso8859.table_nodup : (if t = .iso8859_8 then t.table.set 0x57 0 else t.table).Nodup := by
  refine (@nodup_of_distinctFrom 0 _ ?_).1
  cases t <;> decide +kernel

theorem iso8859_8_repeated : iso8859_8ToU.getD 0x57 0 = iso8859_8ToU.getD 0x2a 0 := by
  decide +kernel

/-- The first slot that holds an entry is its own slot when no earlier slot holds it. -/
theorem findIdx?_getD {l : List Nat} {i : Nat} (hi : i < l.length)
    (hfirst : ∀ j < i, l.getD j 0 ≠ l.getD i 0) : l.findIdx? (· == l.getD i 0) = some i := by
  rw [findIdx?_eq_some_iff_getElem]
  refine ⟨hi, by simp [hi], ?_⟩
  intro j hj
  have hne := hfirst j hj
  rw [getD_eq_getElem l 0 hi, getD_eq_getElem l 0 (Nat.lt_trans hj hi)] at hne
  simp [hi, hne]

/-- The table search finds every slot again, except the repeated one. -/
theorem Iso8859.findIdx?_slot {i : Nat} (hi : i < 128) : t.table.findIdx? (· == t.table.getD i 0) =
      some (if t = .iso8859_8 ∧ i = 0x57 then 0x2a else i) := by
  have hlen := t.table_length
  have hnd := t.table_nodup
  by_cases ht : t = .iso8859_8
  · subst ht
    -- away from slot 0x57 the blanked table is the table
    have hset : ∀ j, j < 128 → j ≠ 0x57 → (iso8859_8ToU.set 0x57 0).getD j 0 = iso8859_8ToU.getD j 0 := by
      intro j hj hne
      rw [getD_eq_getElem?_getD, getD_eq_getElem?_getD, getElem?_set_ne (Ne.symm hne)]
    have hinj : ∀ j k, j < 128 → k < 128 → j ≠ 0x57 → k ≠ 0x57 →
        iso8859_8ToU.getD j 0 = iso8859_8ToU.getD k 0 → j = k := by
      intro j k hj hk hj' hk' he
      rw [← hset j hj hj', ← hset k hk hk'] at he
      have hjl : j < (iso8859_8ToU.set 0x57 0).length := by exact hj
      have hkl : k < (iso8859_8ToU.set 0x57 0).length := by exact hk
      rw [getD_eq_getElem _ 0 hjl, getD_eq_getElem _ 0 hkl] at he
      exact (List.Nodup.getElem_inj_iff hnd).mp he
    by_cases h57 : i = 0x57
    · subst h57
      rw [if_pos ⟨rfl, rfl⟩, show Iso8859.iso8859_8.table = iso8859_8ToU from rfl, iso8859_8_repeated]
      refine findIdx?_getD (by rw [show iso8859_8ToU.length = 128 from rfl]; omega) ?_
      intro j hj he
      have := hinj j 0x2a (by omega) (by decide) (by omega) (by decide) he
      omega
    · rw [if_neg (fun h => h57 h.2), show Iso8859.iso8859_8.table = iso8859_8ToU from rfl]
      refine findIdx?_getD hi ?_
      intro j hj he
      by_cases hj57 : j = 0x57
      · subst hj57
        have := hinj 0x2a i (by decide) hi (by decide) h57 he
        omega
      · have := hinj j i (by omega) hi hj57 h57 he
        omega
  · rw [if_neg ht] at hnd
    rw [if_neg (fun h => ht h.1)]
    refine findIdx?_getD (by omega) ?_
    intro j hj he
    rw [getD_eq_getElem _ 0 (by omega), getD_eq_getElem _ 0 (by omega)] at he
    have := (List.Nodup.getElem_inj_iff hnd).mp he
    omega

/-! ## Decoding and encoding one byte -/

variable {b : UInt8}

/-- Scalars of the tables lie below the surrogates. -/
theorem Iso8859.decode_lt : t.decode b < 0xd800 := by
  have hb := b.toNat_lt
  rw [decode, iso8859ToU]
  split_ifs with h
  · omega
  · have hi : b.toNat - 128 < t.table.length := by rw [t.table_length]; omega
    rw [getD_eq_getElem _ 0 hi]
    exact (t.table_range _ (getElem_mem hi)).2

/-- The byte a decoded byte is encoded as. -/
def Iso8859.canonical (t : Iso8859) (b : UInt8) : UInt8 :=
  if t = .iso8859_8 ∧ b = 0xd7 then 0xaa else b

theorem Iso8859.encode_decode : t.encode (t.decode b) = some (t.canonical b) := by
  have hb := b.toNat_lt
  rw [encode, decode, iso8859ToU, uToIso8859]
  by_cases h : b < 128
  · have h' : b.toNat < 128 := UInt8.lt_iff_toNat_lt.mp h
    have hne : b ≠ 0xd7 := by
      rintro rfl
      exact absurd h (by decide)
    simp [h, h', canonical, hne]
  · have h' : 128 ≤ b.toNat := by
      rw [UInt8.lt_iff_toNat_lt] at h
      simpa using h
    have hi : b.toNat - 128 < t.table.length := by rw [t.table_length]; omega
    have hr := t.table_range _ (getElem_mem hi)
    rw [← getD_eq_getElem t.table 0 hi] at hr
    rw [if_neg h, if_neg (by omega), t.findIdx?_slot (by omega), canonical]
    have hiff : b.toNat - 128 = 0x57 ↔ b = 0xd7 := by
      rw [← UInt8.toNat_inj]
      simp only [UInt8.reduceToNat]
      omega
    simp only [hiff, Option.map_some]
    split_ifs
    · rfl
    · rw [Nat.sub_add_cancel h', UInt8.ofNat_toNat]

/-- An encoded byte decodes to the scalar it was encoded from. -/
theorem Iso8859.decode_of_encode {c : Nat} (h : t.encode c = some b) : t.decode b = c := by
  rw [encode, uToIso8859] at h
  rw [decode, iso8859ToU]
  by_cases hc : c < 128
  · rw [if_pos hc, Option.some.injEq] at h
    subst h
    have hn : (UInt8.ofNat c).toNat = c := by
      rw [UInt8.toNat_ofNat']
      omega
    rw [if_pos (UInt8.lt_iff_toNat_lt.mpr (by rw [hn]; exact hc)), hn]
  · rw [if_neg hc, Option.map_eq_some_iff] at h
    obtain ⟨i, hi, rfl⟩ := h
    obtain ⟨hlt, heq, -⟩ := findIdx?_eq_some_iff_getElem.mp hi
    rw [t.table_length] at hlt
    have hn : (UInt8.ofNat (i + 128)).toNat = i + 128 := by
      rw [UInt8.toNat_ofNat']
      omega
    have hnot : ¬ UInt8.ofNat (i + 128) < 128 := by
      rw [UInt8.lt_iff_toNat_lt, hn]
      simp
    rw [if_neg hnot, hn, Nat.add_sub_cancel, getD_eq_getElem _ 0 (by omega)]
    simpa using heq

end Crabc.Iconv
